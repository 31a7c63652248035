import Mathlib.Data.List.Range
import KPanic.Lib.Bytes
import KPanic.Lib.Machine

/-!
# Time stamps in `Scheduler` and `Syscall::clock`

The average number of clocks between two ticks is measured over 51 ticks out of 300, and `clock` divides
the run time of the process by it. The run time never decreases, but the average can.
-/

namespace KPanic.Timekeeping

open Bytes (add64 sub64)
open Function
open Machine

def CALIBRATION_INTERRUPTS : ℕ := 51

def CALIBRATION_FREQUENCY : ℕ := 300

structure Scheduler where
  ticks_ : ℕ
  clocks_per_interrupt_ : ℕ
  old_clocks_per_interrupt_ : ℕ
  prev_time_ : ℕ
  calibr_ticks_ : ℕ
  calibrated_ : Bool
  uthread_start_ : ℕ
  uthread_end_ : ℕ
  /-- The process of `currentThread`, if that is a user thread. -/
  process : Option ℕ
  accumulated_incs_ : ℕ → ℕ
  /-- The last time stamp that was read. -/
  now : ℕ

inductive Panic
  | divisionByZero
  | noUserThread
  deriving DecidableEq

namespace Scheduler

/-! ### The average -/

def startCalibration (s : Scheduler) : Scheduler :=
  { s with
    calibrated_ := false
    calibr_ticks_ := 0
    prev_time_ := 0
    old_clocks_per_interrupt_ := s.clocks_per_interrupt_
    clocks_per_interrupt_ := 0 }

def measure (s : Scheduler) (time : ℕ) : Scheduler :=
  { s with
    clocks_per_interrupt_ := add64 s.clocks_per_interrupt_ (if s.prev_time_ = 0 then 0 else sub64 time s.prev_time_)
    prev_time_ := time
    calibr_ticks_ := s.calibr_ticks_ + 1 }

def endCalibration (s : Scheduler) : Scheduler :=
  { s with
    clocks_per_interrupt_ := s.clocks_per_interrupt_ / (CALIBRATION_INTERRUPTS - 1)
    calibrated_ := true }

def incTicks (s : Scheduler) (time : ℕ) : Scheduler :=
  let s := if s.ticks_ % CALIBRATION_FREQUENCY = 0 then s.startCalibration else s
  let s := if s.calibr_ticks_ < CALIBRATION_INTERRUPTS ∧ s.calibrated_ = false then s.measure time else s
  let s := if s.calibr_ticks_ = CALIBRATION_INTERRUPTS ∧ s.calibrated_ = false then s.endCalibration else s
  { s with ticks_ := add64 s.ticks_ 1, now := time }

def getCurrentAVGClocksPerInterrupt (s : Scheduler) : Except Panic ℕ :=
  if s.calibrated_ then .ok s.clocks_per_interrupt_
  else if s.old_clocks_per_interrupt_ = 0 then
    if s.ticks_ = 0 then .error .divisionByZero else .ok (s.clocks_per_interrupt_ / s.ticks_)
  else .ok s.old_clocks_per_interrupt_

/-! ### The run time of a process -/

/-- `schedule` selects a thread of the process `next`, or a kernel thread. The time is read at the end of
what the current thread does, and at the start of what that thread does. -/
def schedule (s : Scheduler) (next : Option ℕ) (stop start : ℕ) : Scheduler :=
  let s :=
    match s.process with
    | none => s
    | some p =>
      let uthread_end_ := if s.uthread_start_ = 0 then 0 else stop
      { s with
        uthread_end_ := uthread_end_
        accumulated_incs_ := update s.accumulated_incs_ p
          (add64 (s.accumulated_incs_ p) (sub64 uthread_end_ s.uthread_start_)) }
  match next with
  | none => { s with process := none, now := start }
  | some _ => { s with process := next, uthread_start_ := start, now := start }

def clock (s : Scheduler) (p time : ℕ) : Except Panic ℕ :=
  match s.getCurrentAVGClocksPerInterrupt with
  | .error e => .error e
  | .ok avg =>
    let by_ := avg * 10 % 2 ^ 64
    let div := add64 (s.accumulated_incs_ p) (sub64 time s.uthread_start_) * 549254 % 2 ^ 64
    if by_ = 0 then .error .divisionByZero else .ok (div / by_)

end Scheduler

/-! ### Runs -/

inductive Call
  | incTicks (time : ℕ)
  | schedule (next : Option ℕ) (stop start : ℕ)
  | clock (time : ℕ)
  deriving DecidableEq

/-- A process is told its time. -/
structure Told where
  process : ℕ
  clocks : ℕ
  deriving DecidableEq

def step (s : Scheduler) : Call → Except Panic (Scheduler × List Told)
  | .incTicks time => .ok (s.incTicks time, [])
  | .schedule next stop start => .ok (s.schedule next stop start, [])
  | .clock time =>
    match s.process with
    | none => .error .noUserThread
    | some p => (s.clock p time).map fun r => ({ s with now := time }, [⟨p, r⟩])

def boot : Scheduler where
  ticks_ := 0
  clocks_per_interrupt_ := 0
  old_clocks_per_interrupt_ := 0
  prev_time_ := 0
  calibr_ticks_ := 0
  calibrated_ := false
  uthread_start_ := 0
  uthread_end_ := 0
  process := none
  accumulated_incs_ _ := 0
  now := 0

/-- The time stamps increase. -/
def Timely (s : Scheduler) : Call → Prop
  | .incTicks time => s.now < time ∧ time < 2 ^ 64
  | .schedule _ stop start => s.now < stop ∧ stop < start ∧ start < 2 ^ 64
  | .clock time => s.now < time ∧ time < 2 ^ 64

instance (s : Scheduler) : DecidablePred (Timely s)
  | .incTicks _ => inferInstanceAs (Decidable (_ ∧ _))
  | .schedule _ _ _ => inferInstanceAs (Decidable (_ ∧ _ ∧ _))
  | .clock _ => inferInstanceAs (Decidable (_ ∧ _))

/-- What the process has been told, in this order. -/
def told (p : ℕ) (tr : List Told) : List ℕ := (tr.filter fun e => e.process = p).map Told.clocks

variable {s u : Scheduler} {tr : List Told} {evs : List Told} {p q time stop start avg avg' : ℕ} {c : Call}

/-! ### The calibration -/

/-- Before the first calibration ends there is no average. Later it is that of the last calibration that
has ended. -/
structure Measured (s : Scheduler) : Prop where
  ticks_le : s.ticks_ ≤ s.now
  now_lt : s.now < 2 ^ 64
  fresh : s.ticks_ = 0 → s.clocks_per_interrupt_ = 0
  running : s.calibrated_ = false → 0 < s.ticks_ → s.ticks_ % 300 = s.calibr_ticks_ ∧
    1 ≤ s.calibr_ticks_ ∧ s.calibr_ticks_ ≤ 50
  spaced : s.calibrated_ = false → 0 < s.ticks_ → 0 < s.prev_time_ ∧ s.prev_time_ ≤ s.now ∧
    s.calibr_ticks_ ≤ s.clocks_per_interrupt_ + 1 ∧ s.clocks_per_interrupt_ ≤ s.prev_time_
  kept : s.calibrated_ = false → 300 ≤ s.ticks_ →
    0 < s.old_clocks_per_interrupt_ ∧ 50 * s.old_clocks_per_interrupt_ < 2 ^ 64
  ended : s.calibrated_ = true → 0 < s.clocks_per_interrupt_ ∧ 50 * s.clocks_per_interrupt_ < 2 ^ 64

theorem measured_boot : Measured boot := by
  constructor <;> decide

/-- Nothing has been measured in between. -/
structure SameCalibration (s u : Scheduler) : Prop where
  ticks : u.ticks_ = s.ticks_
  clocks : u.clocks_per_interrupt_ = s.clocks_per_interrupt_
  old : u.old_clocks_per_interrupt_ = s.old_clocks_per_interrupt_
  prev : u.prev_time_ = s.prev_time_
  calibr : u.calibr_ticks_ = s.calibr_ticks_
  calibrated : u.calibrated_ = s.calibrated_

theorem SameCalibration.avg_eq (hsame : SameCalibration s u) :
    u.getCurrentAVGClocksPerInterrupt = s.getCurrentAVGClocksPerInterrupt := by
  rw [Scheduler.getCurrentAVGClocksPerInterrupt, hsame.calibrated, hsame.clocks, hsame.old, hsame.ticks]
  rfl

theorem Measured.later (h : Measured s) (hsame : SameCalibration s u) (hnow : s.now ≤ u.now)
    (hlt : u.now < 2 ^ 64) : Measured u := by
  obtain ⟨hticks, hclocks, hold, hprev, hcalibr, hcal⟩ := hsame
  constructor
  · rw [hticks]
    exact h.ticks_le.trans hnow
  · exact hlt
  · rw [hticks, hclocks]
    exact h.fresh
  · rw [hcal, hticks, hcalibr]
    exact h.running
  · rw [hcal, hticks, hprev, hcalibr, hclocks]
    intro hrunning hpos
    obtain ⟨hpos, hle, hspaced⟩ := h.spaced hrunning hpos
    exact ⟨hpos, hle.trans hnow, hspaced⟩
  · rw [hcal, hticks, hold]
    exact h.kept
  · rw [hcal, hclocks]
    exact h.ended

/-- What a tick does. -/
inductive Ticked (s : Scheduler) (time : ℕ) : Scheduler → Prop
  | starts (h : s.ticks_ % 300 = 0) :
    Ticked s time { s with
      calibrated_ := false
      calibr_ticks_ := 1
      prev_time_ := time
      old_clocks_per_interrupt_ := s.clocks_per_interrupt_
      clocks_per_interrupt_ := 0
      ticks_ := s.ticks_ + 1
      now := time }
  | measures (h : s.ticks_ % 300 ≠ 0) (hc : s.calibrated_ = false) (hn : s.calibr_ticks_ < 50) :
    Ticked s time { s with
      clocks_per_interrupt_ := s.clocks_per_interrupt_ + (time - s.prev_time_)
      prev_time_ := time
      calibr_ticks_ := s.calibr_ticks_ + 1
      ticks_ := s.ticks_ + 1
      now := time }
  | ends (h : s.ticks_ % 300 ≠ 0) (hc : s.calibrated_ = false) (hn : s.calibr_ticks_ = 50) :
    Ticked s time { s with
      clocks_per_interrupt_ := (s.clocks_per_interrupt_ + (time - s.prev_time_)) / 50
      prev_time_ := time
      calibr_ticks_ := 51
      calibrated_ := true
      ticks_ := s.ticks_ + 1
      now := time }
  | counts (h : s.ticks_ % 300 ≠ 0) (hc : s.calibrated_ = true) :
    Ticked s time { s with
      ticks_ := s.ticks_ + 1
      now := time }

theorem incTicks_ticked (h : Measured s) (hnow : s.now < time) (htime : time < 2 ^ 64) :
    Ticked s time (s.incTicks time) := by
  have hticks : add64 s.ticks_ 1 = s.ticks_ + 1 := by
    have hle := h.ticks_le
    exact Bytes.add64_of_lt (by omega)
  by_cases hstart : s.ticks_ % 300 = 0
  · have hclocks : add64 0 0 = 0 := Bytes.add64_of_lt (by decide)
    have heq : Ticked s time _ := .starts hstart
    rw [← hticks, ← hclocks] at heq
    simpa [Scheduler.incTicks, CALIBRATION_FREQUENCY, hstart, Scheduler.startCalibration, Scheduler.measure,
      CALIBRATION_INTERRUPTS] using heq
  · cases hcal : s.calibrated_ with
    | true =>
      have heq : Ticked s time _ := .counts hstart hcal
      rw [← hticks] at heq
      simpa [Scheduler.incTicks, CALIBRATION_FREQUENCY, hstart, hcal] using heq
    | false =>
      have hpos : 0 < s.ticks_ := by
        by_contra hzero
        exact hstart (by omega)
      obtain ⟨-, -, hle⟩ := h.running hcal hpos
      obtain ⟨hprev, hprevle, -, hbound⟩ := h.spaced hcal hpos
      have hsum : add64 s.clocks_per_interrupt_ (sub64 time s.prev_time_) =
          s.clocks_per_interrupt_ + (time - s.prev_time_) := by
        rw [Bytes.sub64_of_le (by omega) htime]
        exact Bytes.add64_of_lt (by omega)
      by_cases hlast : s.calibr_ticks_ = 50
      · have heq : Ticked s time _ := .ends hstart hcal hlast
        rw [← hticks, ← hsum] at heq
        simpa [Scheduler.incTicks, CALIBRATION_FREQUENCY, hstart, hcal, hlast, Scheduler.measure,
          CALIBRATION_INTERRUPTS, hprev.ne', Scheduler.endCalibration] using heq
      · have hless : s.calibr_ticks_ < 50 := by omega
        have hlt : s.calibr_ticks_ < 51 := by omega
        have heq : Ticked s time _ := .measures hstart hcal hless
        rw [← hticks, ← hsum] at heq
        simpa [Scheduler.incTicks, CALIBRATION_FREQUENCY, hstart, hcal, hlast, hlt, Scheduler.measure,
          CALIBRATION_INTERRUPTS, hprev.ne'] using heq

theorem Ticked.measured (ht : Ticked s time u) (h : Measured s) (hnow : s.now < time) (htime : time < 2 ^ 64) :
    Measured u := by
  have hle := h.ticks_le
  cases ht with
  | starts hstart =>
    refine ⟨by dsimp only; omega, htime, by simp, ?_, ?_, ?_, by simp⟩
    · intro _ _
      dsimp only
      omega
    · intro _ _
      dsimp only
      omega
    · -- the calibration before has ended
      intro _ hlater
      have hcal : s.calibrated_ = true := by
        by_contra hcal
        have hrunning := h.running (Bool.eq_false_of_not_eq_true hcal) (by dsimp only at hlater; omega)
        omega
      exact h.ended hcal
  | measures hstart hcal hless =>
    have hpos : 0 < s.ticks_ := by omega
    obtain ⟨hmod, hfrom, -⟩ := h.running hcal hpos
    obtain ⟨hprev, hprevle, hspaced, hbound⟩ := h.spaced hcal hpos
    refine ⟨by dsimp only; omega, htime, by simp, ?_, ?_, ?_, by simp [hcal]⟩
    · intro _ _
      dsimp only
      omega
    · intro _ _
      dsimp only
      omega
    · intro _ hlater
      exact h.kept hcal (by dsimp only at hlater; omega)
  | ends hstart hcal hlast =>
    have hpos : 0 < s.ticks_ := by omega
    obtain ⟨hprev, hprevle, hspaced, hbound⟩ := h.spaced hcal hpos
    refine ⟨by dsimp only; omega, htime, by simp, by simp, by simp, by simp, ?_⟩
    intro _
    dsimp only
    omega
  | counts hstart hcal =>
    exact ⟨by dsimp only; omega, htime, by simp, by simp [hcal], by simp [hcal], by simp [hcal], fun _ => h.ended hcal⟩

/-- From the end of the first calibration on, a calibration that runs is a later one. -/
theorem Measured.again (h : Measured s) (hcal : s.calibrated_ = false) (hticks : 51 ≤ s.ticks_) :
    300 ≤ s.ticks_ := by
  have hrunning := h.running hcal (by omega)
  omega

/-- From the end of the first calibration on there is an average. -/
theorem Measured.average (h : Measured s) (hticks : 51 ≤ s.ticks_) :
    ∃ avg, s.getCurrentAVGClocksPerInterrupt = .ok avg ∧ 0 < avg ∧ 50 * avg < 2 ^ 64 := by
  rw [Scheduler.getCurrentAVGClocksPerInterrupt]
  cases hcal : s.calibrated_ with
  | true => exact ⟨_, rfl, h.ended hcal⟩
  | false =>
    obtain ⟨hpos, hbound⟩ := h.kept hcal (h.again hcal hticks)
    rw [if_neg Bool.false_ne_true, if_neg hpos.ne']
    exact ⟨_, rfl, hpos, hbound⟩

/-! ### The condition -/

/-- `clock` is called when the first calibration has ended, and the product in it fits into 64 bits. Where
a later calibration ends, its ticks are on average no further apart than those of the one before. -/
def Settled (s : Scheduler) : Call → Prop
  | .incTicks time => s.calibrated_ = false → s.calibr_ticks_ = 50 → 300 ≤ s.ticks_ →
    (s.clocks_per_interrupt_ + (time - s.prev_time_)) / 50 ≤ s.old_clocks_per_interrupt_
  | .schedule _ _ _ => True
  | .clock time => 51 ≤ s.ticks_ ∧
    ∀ p ∈ s.process, (s.accumulated_incs_ p + (time - s.uthread_start_)) * 549254 < 2 ^ 64

instance (s : Scheduler) : DecidablePred (Settled s)
  | .incTicks _ => inferInstanceAs (Decidable (_ → _))
  | .schedule _ _ _ => inferInstanceAs (Decidable True)
  | .clock _ => inferInstanceAs (Decidable (_ ∧ _))

/-- The average does not rise. -/
theorem Ticked.avg_le (ht : Ticked s time u) (h : Measured s) (hsettled : Settled s (.incTicks time))
    (hticks : 51 ≤ s.ticks_) (havg : s.getCurrentAVGClocksPerInterrupt = .ok avg)
    (havg' : u.getCurrentAVGClocksPerInterrupt = .ok avg') : avg' ≤ avg := by
  cases ht with
  | starts hstart =>
    have hcal : s.calibrated_ = true := by
      by_contra hcal
      have hrunning := h.running (Bool.eq_false_of_not_eq_true hcal) (by omega)
      omega
    have hpos := (h.ended hcal).1
    simp only [Scheduler.getCurrentAVGClocksPerInterrupt, hcal, if_true, Except.ok.injEq] at havg
    simp only [Scheduler.getCurrentAVGClocksPerInterrupt, Bool.false_eq_true, if_false, if_neg hpos.ne',
      Except.ok.injEq] at havg'
    omega
  | measures hstart hcal hless =>
    have hlater := h.again hcal hticks
    have hpos := (h.kept hcal hlater).1
    simp only [Scheduler.getCurrentAVGClocksPerInterrupt, hcal, Bool.false_eq_true, if_false, if_neg hpos.ne',
      Except.ok.injEq] at havg havg'
    omega
  | ends hstart hcal hlast =>
    have hlater := h.again hcal hticks
    have hpos := (h.kept hcal hlater).1
    have hspaced := hsettled hcal hlast hlater
    simp only [Scheduler.getCurrentAVGClocksPerInterrupt, hcal, Bool.false_eq_true, if_false, if_neg hpos.ne',
      Except.ok.injEq] at havg
    simp only [Scheduler.getCurrentAVGClocksPerInterrupt, if_true, Except.ok.injEq] at havg'
    omega
  | counts hstart hcal =>
    simp only [Scheduler.getCurrentAVGClocksPerInterrupt, hcal, if_true, Except.ok.injEq] at havg havg'
    omega

/-! ### The run time -/

/-- How long threads of the process have run until `time`. -/
def runTime (s : Scheduler) (p time : ℕ) : ℕ :=
  s.accumulated_incs_ p + if s.process = some p then time - s.uthread_start_ else 0

/-- No process has run for longer than the machine. -/
structure Accounted (s : Scheduler) : Prop where
  start_le : s.uthread_start_ ≤ s.now
  start_pos : s.process ≠ none → 0 < s.uthread_start_
  run_le : ∀ p, runTime s p s.now ≤ s.now

theorem accounted_boot : Accounted boot := by
  constructor
  · decide
  · decide
  · intro p
    simp [runTime, boot]

theorem runTime_mono (s : Scheduler) (p : ℕ) {time time' : ℕ} (h : time ≤ time') :
    runTime s p time ≤ runTime s p time' := by
  unfold runTime
  split <;> omega

theorem Accounted.runTime_le (h : Accounted s) (hnow : s.now ≤ time) : runTime s p time ≤ time := by
  have hrun := h.run_le p
  have hstart := h.start_le
  unfold runTime at hrun ⊢
  split at hrun
  · rw [if_pos ‹_›]
    omega
  · rw [if_neg ‹_›]
    omega

/-- The run time of each process goes on from what it was. -/
theorem schedule_runTime (h : Accounted s) (hstop : s.now < stop) (hstart : stop < start) (hlt : start < 2 ^ 64)
    (next : Option ℕ) (p : ℕ) : runTime (s.schedule next stop start) p start = runTime s p stop := by
  cases hproc : s.process with
  | none =>
    cases next with
    | none => simp [runTime, Scheduler.schedule, hproc]
    | some q => simp [runTime, Scheduler.schedule, hproc]
  | some q =>
    have hpos := h.start_pos (by simp [hproc])
    have hstartle := h.start_le
    have hrun := h.runTime_le (p := q) hstop.le
    rw [runTime, if_pos hproc] at hrun
    have hacc : add64 (s.accumulated_incs_ q) (sub64 stop s.uthread_start_) =
        s.accumulated_incs_ q + (stop - s.uthread_start_) := by
      rw [Bytes.sub64_of_le (by omega) (by omega)]
      exact Bytes.add64_of_lt (by omega)
    have hupdate : ∀ x, update s.accumulated_incs_ q (s.accumulated_incs_ q + (stop - s.uthread_start_)) x =
        runTime s x stop := by
      intro x
      by_cases hx : q = x
      · subst hx
        rw [update_self, runTime, if_pos hproc]
      · have hproc' : s.process ≠ some x := by
          rw [hproc]
          exact fun heq => hx (Option.some.inj heq)
        rw [update_of_ne (Ne.symm hx), runTime, if_neg hproc', Nat.add_zero]
    cases next with
    | none => simp [runTime, Scheduler.schedule, hproc, hpos.ne', hacc, hupdate]
    | some r => simp [runTime, Scheduler.schedule, hproc, hpos.ne', hacc, hupdate]

theorem schedule_now (s : Scheduler) (next : Option ℕ) (stop start : ℕ) :
    (s.schedule next stop start).now = start := by
  cases next <;> rfl

theorem schedule_accounted (h : Accounted s) (hstop : s.now < stop) (hstart : stop < start) (hlt : start < 2 ^ 64)
    (next : Option ℕ) : Accounted (s.schedule next stop start) := by
  have hnow := schedule_now s next stop start
  have hold := h.start_le
  refine ⟨?_, ?_, ?_⟩
  · rw [hnow]
    cases next with
    | none => cases hproc : s.process <;> simp [Scheduler.schedule, hproc] <;> omega
    | some q => exact le_rfl
  · intro hproc
    cases next with
    | none => exact absurd rfl hproc
    | some q => exact Nat.zero_lt_of_lt hstart
  · intro p
    rw [hnow, schedule_runTime h hstop hstart hlt]
    exact (h.runTime_le hstop.le).trans hstart.le

theorem schedule_same (s : Scheduler) (next : Option ℕ) (stop start : ℕ) :
    SameCalibration s (s.schedule next stop start) := by
  cases hproc : s.process <;> cases next <;> simp only [Scheduler.schedule, hproc] <;>
    exact ⟨rfl, rfl, rfl, rfl, rfl, rfl⟩

theorem Ticked.later (ht : Ticked s time u) : u.ticks_ = s.ticks_ + 1 ∧ u.now = time := by
  cases ht <;> exact ⟨rfl, rfl⟩

theorem Ticked.runTime_eq (ht : Ticked s time u) (p t : ℕ) : runTime u p t = runTime s p t := by
  cases ht <;> rfl

theorem Ticked.accounted (ht : Ticked s time u) (h : Accounted s) (hnow : s.now < time) : Accounted u := by
  have hle := h.start_le
  have hrun : ∀ p, runTime u p time ≤ time := fun p => (ht.runTime_eq p time).trans_le (h.runTime_le hnow.le)
  cases ht <;> exact ⟨by dsimp only; omega, h.start_pos, hrun⟩

/-! ### `clock` -/

theorem clock_eq (h : Measured s) (hacc : Accounted s) (hticks : 51 ≤ s.ticks_) (hproc : s.process = some p)
    (hnow : s.now < time) (htime : time < 2 ^ 64)
    (hfits : (s.accumulated_incs_ p + (time - s.uthread_start_)) * 549254 < 2 ^ 64) :
    ∃ avg, s.getCurrentAVGClocksPerInterrupt = .ok avg ∧
      s.clock p time = .ok (runTime s p time * 549254 / (avg * 10)) := by
  obtain ⟨avg, havg, hpos, hbound⟩ := h.average hticks
  have hstart := hacc.start_le
  have hrun : add64 (s.accumulated_incs_ p) (sub64 time s.uthread_start_) = runTime s p time := by
    rw [runTime, if_pos hproc, Bytes.sub64_of_le (by omega) htime]
    exact Bytes.add64_of_lt (by omega)
  have hdiv : runTime s p time * 549254 % 2 ^ 64 = runTime s p time * 549254 := by
    rw [runTime, if_pos hproc]
    exact Nat.mod_eq_of_lt hfits
  have hby : avg * 10 % 2 ^ 64 = avg * 10 := Nat.mod_eq_of_lt (by omega)
  have hnonzero : avg * 10 ≠ 0 := by omega
  refine ⟨avg, havg, ?_⟩
  rw [Scheduler.clock, havg]
  dsimp only
  rw [hrun, hdiv, hby, if_neg hnonzero]

/-! ### Runs -/

/-- Each process would now be told at least what it has been told. -/
structure ClockInv (tr : List Told) (s : Scheduler) : Prop where
  measured : Measured s
  accounted : Accounted s
  told_le : ∀ e ∈ tr, 51 ≤ s.ticks_ ∧ ∀ avg, s.getCurrentAVGClocksPerInterrupt = .ok avg →
    e.clocks ≤ runTime s e.process s.now * 549254 / (avg * 10)
  sorted : ∀ p, (told p tr).Pairwise (· ≤ ·)

theorem told_append (p : ℕ) (tr tr' : List Told) : told p (tr ++ tr') = told p tr ++ told p tr' := by
  simp [told]

theorem clockInv_boot : ClockInv [] boot :=
  ⟨measured_boot, accounted_boot, fun e he => by simp at he, fun p => List.Pairwise.nil⟩

/-- A clock that reads more, divided by less. -/
theorem told_le_later {run run' : ℕ} (hrun : run ≤ run') (havg : avg' ≤ avg) (hpos : 0 < avg') :
    run * 549254 / (avg * 10) ≤ run' * 549254 / (avg' * 10) := by
  have hby : avg' * 10 ≤ avg * 10 := Nat.mul_le_mul_right 10 havg
  have hby_pos : 0 < avg' * 10 := by omega
  calc run * 549254 / (avg * 10) ≤ run * 549254 / (avg' * 10) := Nat.div_le_div_left hby hby_pos
    _ ≤ run' * 549254 / (avg' * 10) := Nat.div_le_div_right (Nat.mul_le_mul_right _ hrun)

theorem ClockInv.incTicks (h : ClockInv tr s) (htimely : Timely s (.incTicks time))
    (hsettled : Settled s (.incTicks time)) : ClockInv tr (s.incTicks time) := by
  obtain ⟨hnow, htime⟩ := htimely
  have ht := incTicks_ticked h.measured hnow htime
  have hmeasured := ht.measured h.measured hnow htime
  obtain ⟨hcount, hread⟩ := ht.later
  refine ⟨hmeasured, ht.accounted h.accounted hnow, ?_, h.sorted⟩
  intro e he
  obtain ⟨hticks, hclocks⟩ := h.told_le e he
  have hticks' : 51 ≤ (s.incTicks time).ticks_ := by omega
  refine ⟨hticks', ?_⟩
  intro avg' havg'
  obtain ⟨avg, havg, -⟩ := h.measured.average hticks
  obtain ⟨avg'', havg'', hpos, -⟩ := hmeasured.average hticks'
  obtain rfl := Except.ok.inj (havg''.symm.trans havg')
  rw [hread, ht.runTime_eq]
  exact (hclocks avg havg).trans
    (told_le_later (runTime_mono s _ hnow.le) (ht.avg_le h.measured hsettled hticks havg havg') hpos)

theorem ClockInv.schedule (h : ClockInv tr s) {next : Option ℕ} (htimely : Timely s (.schedule next stop start)) :
    ClockInv tr (s.schedule next stop start) := by
  obtain ⟨hstop, hstart, hlt⟩ := htimely
  have hsame := schedule_same s next stop start
  have hnow := schedule_now s next stop start
  have hmeasured := h.measured.later hsame (by rw [hnow]; omega) (hnow.trans_lt hlt)
  refine ⟨hmeasured, schedule_accounted h.accounted hstop hstart hlt next, ?_, h.sorted⟩
  intro e he
  rw [hsame.ticks, hsame.avg_eq, hnow, schedule_runTime h.accounted hstop hstart hlt]
  obtain ⟨hlater, hclocks⟩ := h.told_le e he
  refine ⟨hlater, ?_⟩
  intro avg havg
  obtain ⟨avg', havg', hpos, -⟩ := h.measured.average hlater
  obtain rfl := Except.ok.inj (havg'.symm.trans havg)
  exact (hclocks _ havg).trans (told_le_later (runTime_mono s _ hstop.le) le_rfl hpos)

theorem ClockInv.clock (h : ClockInv tr s) (hproc : s.process = some p) (htimely : Timely s (.clock time))
    (hsettled : Settled s (.clock time)) :
    ∃ r, s.clock p time = .ok r ∧ ClockInv (tr ++ [⟨p, r⟩]) { s with now := time } := by
  obtain ⟨hnow, htime⟩ := htimely
  obtain ⟨hticks, hfits⟩ := hsettled
  obtain ⟨avg, havg, hclock⟩ := clock_eq h.measured h.accounted hticks hproc hnow htime (hfits p hproc)
  obtain ⟨avg', havg', hpos, -⟩ := h.measured.average hticks
  obtain rfl := Except.ok.inj (havg'.symm.trans havg)
  have hearlier : ∀ e ∈ tr, e.clocks ≤ runTime s e.process time * 549254 / (avg' * 10) := fun e he =>
    ((h.told_le e he).2 _ havg).trans (told_le_later (runTime_mono s _ hnow.le) le_rfl hpos)
  have hsame : ∀ avg, ({ s with now := time } : Scheduler).getCurrentAVGClocksPerInterrupt = .ok avg → avg' = avg :=
    fun avg heq => Except.ok.inj (havg.symm.trans heq)
  refine ⟨_, hclock, ?_, ?_, ?_, ?_⟩
  · exact h.measured.later ⟨rfl, rfl, rfl, rfl, rfl, rfl⟩ hnow.le htime
  · exact ⟨h.accounted.start_le.trans hnow.le, h.accounted.start_pos, fun q => h.accounted.runTime_le hnow.le⟩
  · intro e he
    refine ⟨hticks, ?_⟩
    intro avg heq
    obtain rfl := hsame avg heq
    obtain he | he := List.mem_append.mp he
    · exact hearlier e he
    · obtain rfl := List.mem_singleton.mp he
      exact le_rfl
  · intro q
    rw [told_append]
    apply List.pairwise_append.mpr
    refine ⟨h.sorted q, ?_, ?_⟩
    · by_cases hq : p = q <;> simp [told, hq]
    · intro x hx y hy
      obtain ⟨e, he, rfl⟩ := List.mem_map.mp hx
      obtain ⟨he, heq⟩ := List.mem_filter.mp he
      obtain ⟨e', he', rfl⟩ := List.mem_map.mp hy
      obtain ⟨he', heq'⟩ := List.mem_filter.mp he'
      obtain rfl := List.mem_singleton.mp he'
      have hprocess : e.process = p := (of_decide_eq_true heq).trans (of_decide_eq_true heq').symm
      have hle := hearlier e he
      rw [hprocess] at hle
      exact hle

theorem clockInv_run (hrun : Runs step (fun s c => Timely s c ∧ Settled s c) boot tr s) : ClockInv tr s := by
  refine hrun.invariant clockInv_boot ?_
  intro tr s c t evs h hok hs
  obtain ⟨htimely, hsettled⟩ := hok
  cases c with
  | incTicks time =>
    cases hs
    rw [List.append_nil]
    exact h.incTicks htimely hsettled
  | schedule next stop start =>
    cases hs
    rw [List.append_nil]
    exact h.schedule htimely
  | clock time =>
    rw [step] at hs
    cases hproc : s.process with
    | none =>
      rw [hproc] at hs
      cases hs
    | some p =>
      obtain ⟨r, hclock, hinv⟩ := h.clock hproc htimely hsettled
      rw [hproc] at hs
      rw [hproc] at hinv
      dsimp only at hs
      rw [hclock] at hs
      cases hs
      exact hinv

/-- The first calibration, a process that runs after it and asks for its time, and the ticks until a second
calibration ends, in which they are twice as far apart. -/
def twoCalibrations : List Call :=
  (List.range 51).map (fun i => .incTicks (1000 * (i + 1))) ++
    [.schedule (some 0) 51001 51002, .clock 61002, .clock 71002, .schedule none 71003 71004] ++
    (List.range 249).map (fun i => .incTicks (81000 + 1000 * i)) ++
    (List.range 51).map (fun i => .incTicks (331000 + 2000 * i)) ++
    [.schedule (some 0) 431001 431002, .clock 431003]

end KPanic.Timekeeping

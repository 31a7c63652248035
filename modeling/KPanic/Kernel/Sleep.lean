import Mathlib.Algebra.Group.Nat.Defs
import KPanic.Kernel.Scheduler

/-!
# `Syscall::sleep`

The time is not bounded, and what `getCurrentTime` returns is the time in 64 bits. A thread that sleeps
is selected by a later call of `schedule`, with other calls and other threads in between.
-/

namespace KPanic.Scheduling

open Function
open Machine
open Scheduler

/-! ### The system call -/

def timestamp (time : ℕ) : ℕ := time % 2 ^ 64

/-- `wakeup`, and the time at which `sleepUntil` looks at it. -/
def Thread.sleepUntil (wakeup time : ℕ) (T : Thread) : Thread :=
  if wakeup < time then T else { T with time_to_wakeup_ := wakeup }

/-- `avg` is what `getCurrentAVGClocksPerInterrupt` returns. -/
def rdtsc_wakeup_increment (seconds avg time : ℕ) : ℕ :=
  (182065 * seconds % 2 ^ 64 * avg % 2 ^ 64 / 10000 + time) % 2 ^ 64

/-- `sleep` up to `yield`, and what it returns. It reads the time at `now`, and again at `later`. -/
def sleep (s : Scheduler) (t seconds avg now later : ℕ) : Scheduler × ℕ :=
  let wakeup := rdtsc_wakeup_increment seconds avg (timestamp now)
  ({ s with thread := update s.thread t ((s.thread t).sleepUntil wakeup (timestamp later)) }, 0)

/-! ### Runs in time -/

structure Timed where
  scheduler : Scheduler
  time : ℕ

/-- A call, and the time when it ends, which is that of its events. -/
def timedStep (s : Timed) (l : Call × ℕ) : Except Panic (Timed × List (Event × ℕ)) :=
  (step s.scheduler l.1).map fun r => (⟨r.1, l.2⟩, r.2.map fun e => (e, l.2))

/-- `schedule` reads the time while it runs, and the other threads do not write to what `sleepUntil`
has written. -/
structure InTime (t : ℕ) (s : Timed) (l : Call × ℕ) : Prop where
  later : s.time ≤ l.2
  clock : ∀ clock, l.1 = .schedule clock →
    ∃ ticks : ℕ → ℕ, ∀ i, s.time ≤ ticks i ∧ ticks i ≤ l.2 ∧ clock i = timestamp (ticks i)
  own : ∀ thread, l.1 = .threadsRun thread → (thread t).isUser = (s.scheduler.thread t).isUser ∧
    (thread t).time_to_wakeup_ = (s.scheduler.thread t).time_to_wakeup_

def clocksToSleep (seconds avg : ℕ) : ℕ := 182065 * seconds * avg / 10000

/-- The call reports an error, or `t` is not selected before the time has come. -/
def NeverEarly (s : Scheduler) (t seconds avg now : ℕ) : Prop :=
  ∀ later, now ≤ later → (sleep s t seconds avg now later).2 ≠ 0 ∨
    ∀ tr u, Runs timedStep (InTime t) ⟨(sleep s t seconds avg now later).1, later⟩ tr u →
      ∀ time, (Event.scheduled t, time) ∈ tr → now + clocksToSleep seconds avg ≤ time

/-- `t` is the user thread that runs, and makes a system call. -/
structure Calling (s : Scheduler) (t : ℕ) : Prop where
  listed : t ∈ s.threads_
  free : s.block_scheduling_ = false
  running : (s.thread t).state_ = .Running
  user : (s.thread t).isUser = true
  awake : (s.thread t).time_to_wakeup_ = 0

variable {s u : Scheduler} {v w : Timed} {t seconds avg now later : ℕ} {clock : ℕ → ℕ} {thread : ℕ → Thread}
  {T T' : Thread} {evs : List Event} {tr : List (Event × ℕ)} {l : Call × ℕ}

/-! ### The wake-up time -/

def SleepFits (seconds avg now : ℕ) : Prop :=
  182065 * seconds * avg < 2 ^ 64 ∧ timestamp now + clocksToSleep seconds avg < 2 ^ 64

theorem increment_eq (seconds avg time : ℕ) :
    rdtsc_wakeup_increment seconds avg time =
      (182065 * seconds * avg % 2 ^ 64 / 10000 + time) % 2 ^ 64 := by
  rw [rdtsc_wakeup_increment, Nat.mod_mul_mod]

theorem increment_of_fits (h : SleepFits seconds avg now) :
    rdtsc_wakeup_increment seconds avg (timestamp now) = timestamp now + clocksToSleep seconds avg := by
  obtain ⟨hproduct, hsum⟩ := h
  have hsum' : clocksToSleep seconds avg + timestamp now < 2 ^ 64 := by omega
  rw [increment_eq, Nat.mod_eq_of_lt hproduct]
  exact (Nat.mod_eq_of_lt hsum').trans (Nat.add_comm _ _)

/-- The time has come when the time stamp says so, also if that has wrapped around since. -/
theorem time_of_timestamp {time clocks : ℕ} (hlater : now ≤ time) (hsum : timestamp now + clocks < 2 ^ 64)
    (hstamp : timestamp now + clocks ≤ timestamp time) : now + clocks ≤ time := by
  unfold timestamp at hsum hstamp
  omega

/-! ### One call -/

theorem Aged.wakeup (h : Aged clock T T') : T'.isUser = T.isUser ∧
    (T'.time_to_wakeup_ = T.time_to_wakeup_ ∨ ∃ i, T.time_to_wakeup_ ≤ clock i) := by
  obtain rfl | ⟨rfl, hclock⟩ := h
  · exact ⟨rfl, .inl rfl⟩
  · exact ⟨rfl, .inr hclock⟩

theorem schedule_wakeup (h : s.schedule clock = .ok (u, evs)) (t : ℕ) :
    (u.thread t).isUser = (s.thread t).isUser ∧
      ((u.thread t).time_to_wakeup_ = (s.thread t).time_to_wakeup_ ∨
        ∃ i, (s.thread t).time_to_wakeup_ ≤ clock i) ∧
      (.scheduled t ∈ evs → Eligible clock (s.thread t)) := by
  cases hblock : s.block_scheduling_ with
  | true =>
    rw [Scheduler.schedule, if_pos hblock] at h
    cases h
    exact ⟨rfl, .inl rfl, fun hmem => by cases hmem⟩
  | false =>
    obtain ⟨x, u', evs', hok, hsel⟩ | ⟨herr, -⟩ := schedule_cases clock hblock
    · obtain ⟨rfl, rfl⟩ := Prod.mk.inj (Except.ok.inj (hok.symm.trans h))
      obtain ⟨thread, hage, hthread, hevs⟩ := hsel.effect
      obtain ⟨huser, hwake⟩ := (hage t).wakeup
      have hsame : (u'.thread t).isUser = (thread t).isUser ∧
          (u'.thread t).time_to_wakeup_ = (thread t).time_to_wakeup_ := by
        rw [hthread]
        by_cases hx : t = x
        · subst hx
          rw [update_self]
          split <;> exact ⟨rfl, rfl⟩
        · rw [update_of_ne hx]
          exact ⟨rfl, rfl⟩
      rw [hsame.1, hsame.2]
      refine ⟨huser, hwake, ?_⟩
      intro hmem
      have hx : t = x := by
        obtain rfl | rfl := hsel.events
        · simpa using hmem
        · simpa using hmem
      rw [hx]
      exact hsel.eligible
    · rw [herr] at h
      cases h

/-- The wake-up time of `t` stays, and `t` is not selected, before a reading of the time that is past it. -/
theorem step_wakeup (hin : InTime t v l) (hs : step v.scheduler l.1 = .ok (u, evs)) :
    (u.thread t).isUser = (v.scheduler.thread t).isUser ∧
      ((u.thread t).time_to_wakeup_ = (v.scheduler.thread t).time_to_wakeup_ ∨
        ∃ tick, v.time ≤ tick ∧ tick ≤ l.2 ∧ (v.scheduler.thread t).time_to_wakeup_ ≤ timestamp tick) ∧
      (.scheduled t ∈ evs → (v.scheduler.thread t).isUser = true →
        (v.scheduler.thread t).time_to_wakeup_ = 0 ∨
        ∃ tick, v.time ≤ tick ∧ tick ≤ l.2 ∧ (v.scheduler.thread t).time_to_wakeup_ ≤ timestamp tick) := by
  obtain ⟨c, stop⟩ := l
  cases c with
  | schedule clock =>
    obtain ⟨ticks, hticks⟩ := hin.clock clock rfl
    have htick : ∀ {n : ℕ}, (∃ i, n ≤ clock i) →
        ∃ tick, v.time ≤ tick ∧ tick ≤ stop ∧ n ≤ timestamp tick := by
      rintro n ⟨i, hi⟩
      obtain ⟨hfrom, hto, hclock⟩ := hticks i
      exact ⟨ticks i, hfrom, hto, hclock ▸ hi⟩
    obtain ⟨huser, hwake, hsel⟩ := schedule_wakeup hs t
    exact ⟨huser, hwake.imp_right htick, fun hmem huser => ((hsel hmem).2 huser).imp_right htick⟩
  | addNewThread x =>
    obtain ⟨-, hthread, rfl⟩ := addNewThread_ok hs
    rw [hthread]
    exact ⟨rfl, .inl rfl, fun hmem => by simp at hmem⟩
  | cleanupDeadThreads =>
    obtain ⟨-, hthread, rfl⟩ := cleanupDeadThreads_ok hs
    rw [hthread]
    exact ⟨rfl, .inl rfl, fun hmem => by simp at hmem⟩
  | lockScheduling =>
    simp only [step] at hs
    cases hlock : v.scheduler.lockScheduling with
    | error e =>
      rw [hlock] at hs
      cases hs
    | ok s' =>
      rw [hlock, lockScheduling_ok hlock] at hs
      cases hs
      exact ⟨rfl, .inl rfl, fun hmem => by cases hmem⟩
  | unlockScheduling =>
    cases hs
    exact ⟨rfl, .inl rfl, fun hmem => by cases hmem⟩
  | threadsRun thread =>
    cases hs
    obtain ⟨huser, hwake⟩ := hin.own thread rfl
    exact ⟨huser, .inl hwake, fun hmem => by cases hmem⟩

/-! ### No thread is early -/

/-- `t` has been selected in time, and will be: the time has come, or the wake-up time is kept. -/
structure InBed (t now clocks : ℕ) (tr : List (Event × ℕ)) (v : Timed) : Prop where
  user : (v.scheduler.thread t).isUser = true
  since : now ≤ v.time
  due : now + clocks ≤ v.time ∨ (v.scheduler.thread t).time_to_wakeup_ ≠ 0 ∧
    (v.scheduler.thread t).time_to_wakeup_ = timestamp now + clocks
  late : ∀ time, (Event.scheduled t, time) ∈ tr → now + clocks ≤ time

theorem InBed.step {clocks : ℕ} (hsum : timestamp now + clocks < 2 ^ 64) (h : InBed t now clocks tr v)
    (hin : InTime t v l) {evs : List (Event × ℕ)} (hs : timedStep v l = .ok (w, evs)) :
    InBed t now clocks (tr ++ evs) w := by
  rw [timedStep] at hs
  cases hcall : Scheduling.step v.scheduler l.1 with
  | error e =>
    rw [hcall] at hs
    cases hs
  | ok r =>
    obtain ⟨u, evs₀⟩ := r
    rw [hcall] at hs
    cases hs
    obtain ⟨huser, hwake, hsel⟩ := step_wakeup hin hcall
    have hlater : v.time ≤ l.2 := hin.later
    have hcome : (∃ tick, v.time ≤ tick ∧ tick ≤ l.2 ∧
        timestamp now + clocks ≤ timestamp tick) → now + clocks ≤ l.2 := by
      rintro ⟨tick, hfrom, hto, hstamp⟩
      exact (time_of_timestamp (h.since.trans hfrom) hsum hstamp).trans hto
    refine ⟨huser.trans h.user, h.since.trans hlater, ?_, ?_⟩
    · obtain hdue | ⟨hnonzero, heq⟩ := h.due
      · exact .inl (hdue.trans hlater)
      · rw [heq] at hwake
        obtain hkeep | htick := hwake
        · refine .inr ⟨?_, hkeep⟩
          rw [hkeep, ← heq]
          exact hnonzero
        · exact .inl (hcome htick)
    · intro time hmem
      obtain hmem | hmem := List.mem_append.mp hmem
      · exact h.late time hmem
      · obtain ⟨e, he, heq⟩ := List.mem_map.mp hmem
        obtain ⟨rfl, rfl⟩ := Prod.mk.inj heq
        obtain hdue | ⟨hnonzero, heq⟩ := h.due
        · exact hdue.trans hlater
        · obtain hzero | htick := hsel he h.user
          · exact absurd hzero hnonzero
          · rw [heq] at htick
            exact hcome htick

theorem neverEarly_of_fits (huser : (s.thread t).isUser = true) (hfits : SleepFits seconds avg now) :
    NeverEarly s t seconds avg now := by
  intro later hlater
  right
  intro tr u hrun
  have hstart : InBed t now (clocksToSleep seconds avg) [] ⟨(sleep s t seconds avg now later).1, later⟩ := by
    have hthread : (sleep s t seconds avg now later).1.thread t =
        (s.thread t).sleepUntil (timestamp now + clocksToSleep seconds avg) (timestamp later) := by
      rw [sleep, increment_of_fits hfits]
      exact update_self ..
    refine ⟨?_, hlater, ?_, fun time hmem => by cases hmem⟩
    · rw [hthread, Thread.sleepUntil]
      split
      · exact huser
      · exact huser
    · dsimp only
      rw [hthread, Thread.sleepUntil]
      by_cases hpast : timestamp now + clocksToSleep seconds avg < timestamp later
      · exact .inl (time_of_timestamp hlater hfits.2 hpast.le)
      · rw [if_neg hpast]
        by_cases hzero : timestamp now + clocksToSleep seconds avg = 0
        · left
          omega
        · exact .inr ⟨hzero, rfl⟩
  have hbed : InBed t now (clocksToSleep seconds avg) tr u :=
    hrun.invariant hstart fun hbed hin hs => hbed.step hfits.2 hin hs
  exact hbed.late

/-! ### A thread that is early -/

/-- The loop finds a thread if one is due, when the time stands still. -/
theorem scan_finds {k i : ℕ} {ts : List ℕ} (hmem : t ∈ ts) (hrun : (thread t).state_ = .Running)
    (hdue : (thread t).time_to_wakeup_ ≤ k) : (scan (fun _ => k) i ts thread).1 ≠ none := by
  induction ts generalizing i thread with
  | nil => cases hmem
  | cons x ts ih =>
    rw [scan]
    dsimp only
    by_cases hwait : (thread x).isUser ∧ (thread x).time_to_wakeup_ ≠ 0 ∧ (thread x).time_to_wakeup_ > k
    · have hne : t ≠ x := by
        rintro rfl
        exact absurd hdue (Nat.not_le.mpr hwait.2.2)
      have hmem' : t ∈ ts := (List.mem_cons.mp hmem).resolve_left hne
      rw [if_pos hwait]
      simpa using ih hmem' hrun hdue
    · rw [if_neg hwait]
      by_cases hselect : (wakeUp k (thread x)).schedulable = true
      · rw [if_pos hselect]
        simp
      · have hage : Aged (fun _ => k) (thread x) (wakeUp k (thread x)) := aged_wakeUp 0 _
        have hne : t ≠ x := by
          rintro rfl
          exact hselect (decide_eq_true (hage.state.trans hrun))
        have hmem' : t ∈ ts := (List.mem_cons.mp hmem).resolve_left hne
        rw [if_neg hselect]
        have hrest : (scan (fun _ => k) (i + 2) ts (update thread x (wakeUp k (thread x)))).1 ≠ none := by
          apply ih hmem'
          · rw [update_of_ne hne]
            exact hrun
          · rw [update_of_ne hne]
            exact hdue
        simpa using hrest

/-- A due thread is selected when the other ones sleep. -/
theorem schedule_selects {k : ℕ} (hmem : t ∈ s.threads_) (hfree : s.block_scheduling_ = false)
    (hrun : (s.thread t).state_ = .Running) (hdue : (s.thread t).time_to_wakeup_ ≤ k)
    (hothers : ∀ x, x ≠ t → (s.thread x).state_ ≠ .Running) :
    ∃ u evs, s.schedule (fun _ => k) = .ok (u, evs) ∧ Event.scheduled t ∈ evs := by
  obtain ⟨x, u, evs, hok, hsel⟩ | ⟨herr, -⟩ := schedule_cases (fun _ => k) hfree
  · have hx : x = t := by
      by_contra hne
      exact hothers x hne hsel.eligible.1
    subst hx
    refine ⟨u, evs, hok, ?_⟩
    obtain rfl | rfl := hsel.events
    · simp
    · simp
  · have hfinds := scan_finds (i := 0) hmem hrun hdue
    rw [Scheduler.schedule, hfree, if_neg Bool.false_ne_true] at herr
    cases hscan : scan (fun _ => k) 0 s.threads_ s.thread with
    | mk r thread =>
      rw [hscan] at hfinds herr
      cases r with
      | none => exact absurd rfl hfinds
      | some n => cases herr

/-- The other threads fall asleep, and `schedule` is called at `time`. -/
theorem selected_at {time : ℕ} (hlisted : t ∈ s.threads_) (hfree : s.block_scheduling_ = false)
    (hrun : (s.thread t).state_ = .Running) (hlater : now ≤ time)
    (hdue : (s.thread t).time_to_wakeup_ ≤ timestamp time) :
    ∃ tr u, Runs timedStep (InTime t) ⟨s, now⟩ tr u ∧ (Event.scheduled t, time) ∈ tr := by
  let asleep : ℕ → Thread := fun x => if x = t then s.thread t else { s.thread x with state_ := .Sleeping }
  have ht : asleep t = s.thread t := if_pos rfl
  have hothers : ∀ x, x ≠ t → (asleep x).state_ ≠ .Running := by
    intro x hne
    simp [asleep, hne]
  have hrun' : (asleep t).state_ = .Running := by
    rw [ht]
    exact hrun
  have hdue' : (asleep t).time_to_wakeup_ ≤ timestamp time := by
    rw [ht]
    exact hdue
  obtain ⟨u, evs, hsched, hmem⟩ :=
    schedule_selects (s := { s with thread := asleep }) hlisted hfree hrun' hdue' hothers
  have hsleep : Runs timedStep (InTime t) ⟨s, now⟩ ([] ++ []) ⟨{ s with thread := asleep }, now⟩ := by
    refine .next (l := (.threadsRun asleep, now)) .start ⟨le_rfl, ?_, ?_⟩ rfl
    · rintro clock ⟨⟩
    · rintro thread ⟨⟩
      rw [ht]
      exact ⟨rfl, rfl⟩
  have hcall : timedStep ⟨{ s with thread := asleep }, now⟩ (.schedule fun _ => timestamp time, time) =
      .ok (⟨u, time⟩, evs.map fun e => (e, time)) := by
    rw [timedStep, step, hsched]
    rfl
  have hin : InTime t ⟨{ s with thread := asleep }, now⟩ (.schedule fun _ => timestamp time, time) := by
    refine ⟨hlater, ?_, ?_⟩
    · rintro clock ⟨⟩
      exact ⟨fun _ => time, fun i => ⟨hlater, le_rfl, rfl⟩⟩
    · rintro thread ⟨⟩
  refine ⟨_, _, .next hsleep hin hcall, ?_⟩
  exact List.mem_append_right _ (List.mem_map.mpr ⟨_, hmem, rfl⟩)

theorem inc_lt (hfits : ¬SleepFits seconds avg now)
    (hsum : 182065 * seconds * avg % 2 ^ 64 / 10000 + timestamp now < 2 ^ 64) :
    182065 * seconds * avg % 2 ^ 64 / 10000 < clocksToSleep seconds avg := by
  unfold SleepFits clocksToSleep at hfits
  unfold clocksToSleep
  omega

theorem clocks_pos (hfits : ¬SleepFits seconds avg now) (hstamp : timestamp now < 2 ^ 64) :
    0 < clocksToSleep seconds avg := by
  unfold SleepFits clocksToSleep at hfits
  unfold clocksToSleep
  omega

/-- Where the product or the sum does not fit, the wake-up time is too early, or already past. -/
theorem early_of_not_fits (hcall : Calling s t) (hfits : ¬SleepFits seconds avg now) :
    ¬NeverEarly s t seconds avg now := by
  intro hnever
  let inc := 182065 * seconds * avg % 2 ^ 64 / 10000
  have hwakeup : rdtsc_wakeup_increment seconds avg (timestamp now) = (inc + timestamp now) % 2 ^ 64 :=
    increment_eq _ _ _
  obtain hret | hruns := hnever now le_rfl
  · exact hret rfl
  · have hthread : (sleep s t seconds avg now now).1.thread t =
        (s.thread t).sleepUntil ((inc + timestamp now) % 2 ^ 64) (timestamp now) := by
      rw [sleep, hwakeup]
      exact update_self ..
    have hrunning : ((sleep s t seconds avg now now).1.thread t).state_ = .Running := by
      rw [hthread, Thread.sleepUntil]
      split <;> exact hcall.running
    -- the time at which the thread can be selected
    obtain ⟨time, hlater, hdue, hearly⟩ : ∃ time, now ≤ time ∧
        ((sleep s t seconds avg now now).1.thread t).time_to_wakeup_ ≤ timestamp time ∧
          time < now + clocksToSleep seconds avg := by
      rw [hthread, Thread.sleepUntil]
      by_cases hsum : inc + timestamp now < 2 ^ 64
      · -- the product has wrapped
        have hkeep : ¬(inc + timestamp now) % 2 ^ 64 < timestamp now := by omega
        refine ⟨now + inc, Nat.le_add_right _ _, ?_, Nat.add_lt_add_left (inc_lt hfits hsum) now⟩
        rw [if_neg hkeep]
        dsimp only
        unfold timestamp at hsum ⊢
        omega
      · -- the sum has wrapped, and `sleepUntil` returns at once
        have hstamp : timestamp now < 2 ^ 64 := Nat.mod_lt _ (by decide)
        have hinc : inc < 2 ^ 64 := (Nat.div_le_self _ _).trans_lt (Nat.mod_lt _ (by decide))
        have hpast : (inc + timestamp now) % 2 ^ 64 < timestamp now := by omega
        refine ⟨now, le_rfl, ?_, Nat.lt_add_of_pos_right (clocks_pos hfits hstamp)⟩
        rw [if_pos hpast, hcall.awake]
        exact Nat.zero_le _
    obtain ⟨tr, u, hrun, hmem⟩ := selected_at (s := (sleep s t seconds avg now now).1) hcall.listed hcall.free
      hrunning hlater hdue
    exact absurd (hruns tr u hrun time hmem) (Nat.not_le.mpr hearly)

/-- Sleep is never too short if and only if the product and the sum fit into 64 bits. -/
theorem sleep_never_early_iff (hcall : Calling s t) (seconds avg now : ℕ) :
    NeverEarly s t seconds avg now ↔ SleepFits seconds avg now := by
  constructor
  · intro hnever
    by_contra hfits
    exact early_of_not_fits hcall hfits hnever
  · exact neverEarly_of_fits hcall.user

/-- A user thread in a system call. -/
def oneUser : Scheduler where
  threads_ := [0]
  thread _ := ⟨true, .Running, false, 0, false, true, false⟩
  currentThread := some 0
  block_scheduling_ := false

theorem oneUser_calling : Calling oneUser 0 := ⟨by decide, rfl, rfl, rfl, rfl⟩

theorem sleep_never_early_iff_oneUser : Calling oneUser 0 ∧
    (NeverEarly oneUser 0 60 100000000 5000 ↔ SleepFits 60 100000000 5000) :=
  ⟨oneUser_calling, sleep_never_early_iff oneUser_calling 60 100000000 5000⟩

/-- Twelve days at 1.8 GHz. -/
theorem sleep_twelve_days : ¬NeverEarly oneUser 0 1036800 100000000 5000 :=
  early_of_not_fits oneUser_calling fun hfits => absurd hfits.1 (by decide)

end KPanic.Scheduling

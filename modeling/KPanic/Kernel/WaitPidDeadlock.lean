import KPanic.Kernel.WaitPid
import KPanic.Lib.WaitGraph

/-!
# The deadlock check of `waitpid`

The recorded waits stay acyclic, so the recursion of `checkWaitPidDeadlock` ends. Entries for a
process that has died stay in the lists of those that waited for it, while its own list is
erased; from then on the recursion can run into a pid that has no list.
-/

namespace KPanic.WaitPid

open Function
open Relation (TransGen ReflTransGen)

namespace Registry

variable {s s' : Registry} {l : Label} {tr evs : List Event}

/-- A process of pid `p` waits, or has waited, for pid `q`. -/
def WaitsFor (s : Registry) (p q : Pid) : Prop :=
  ∃ pids, s.wait_pid_map_helper_ p = some pids ∧ q ∈ pids

structure Wf (s : Registry) : Prop where
  keys : ∀ {p}, s.wait_pid_map_helper_ p ≠ none → p < s.pid_counter_
  targets : ∀ {p q}, s.WaitsFor p q → q < s.pid_counter_
  acyclic : WaitGraph.Acyclic s.WaitsFor
  born : ∀ {p}, s.phase p ≠ .unborn → p < s.pid_counter_
  mapped : ∀ {p}, s.waitpid_map_ p ≠ none ↔ s.phase p = .alive
  listed : ∀ {p}, s.wait_pid_map_helper_ p ≠ none ↔ s.phase p = .alive

/-- Every pid on a chain of recorded waits from `pid`, `pid` included, is registered. -/
def AllRegistered (s : Registry) (pid : Pid) : Prop :=
  ∀ q, ReflTransGen s.WaitsFor pid q → s.wait_pid_map_helper_ q ≠ none

/-- What an answer says about the chains from `p`: -1 exactly if one leads to `w`, 0 only if all
of them have been followed, a failed look-up only for a pid that is not registered. -/
def Explains (s : Registry) (w p : Pid) : Except Panic Bool → Prop
  | .ok true => TransGen s.WaitsFor p w
  | .ok false => ¬TransGen s.WaitsFor p w ∧ s.AllRegistered p
  | .error _ => ¬s.AllRegistered p

theorem allRegistered_of_edge {p q : Pid} (h : s.AllRegistered p) (hpq : s.WaitsFor p q) :
    s.AllRegistered q := fun r hr => h r (.head hpq hr)

/-- The same for the loop over `pids`, waits of `p`. -/
def ExplainsScan (s : Registry) (w p : Pid) (pids : List Pid) : Except Panic Bool → Prop
  | .ok true => TransGen s.WaitsFor p w
  | .ok false => ∀ q ∈ pids, q ≠ w ∧ ¬TransGen s.WaitsFor q w ∧ s.AllRegistered q
  | .error _ => ¬s.AllRegistered p

theorem scanPids_explains {w p : Pid} {check : Pid → Answer} {pids : List Pid}
    {r : Except Panic Bool} (hedge : ∀ q ∈ pids, s.WaitsFor p q)
    (hcheck : ∀ {q r}, check q = some r → s.Explains w q r) (h : scanPids check w pids = some r) :
    s.ExplainsScan w p pids r := by
  induction pids with
  | nil =>
    cases h
    intro q hq
    cases hq
  | cons q pids ih =>
    have hpq : s.WaitsFor p q := hedge q (List.mem_cons_self ..)
    rw [scanPids] at h
    split at h
    · rename_i heq
      cases h
      exact .single (heq ▸ hpq)
    · rename_i hne
      split at h
      · rename_i hans
        have hq := hcheck hans
        have hrest := ih (fun x hx => hedge x (List.mem_cons_of_mem _ hx)) h
        rcases r with e | _ | _
        · exact hrest
        · intro x hx
          rcases List.mem_cons.mp hx with rfl | hx
          · exact ⟨hne, hq⟩
          · exact hrest x hx
        · exact hrest
      · rename_i hans
        have hq := hcheck h
        rcases r with e | _ | _
        · exact fun hall => hq (allRegistered_of_edge hall hpq)
        · exact absurd h hans
        · exact .head hpq hq

theorem checkWaitPidDeadlock_explains {w : Pid} {n : ℕ} {p : Pid} {r : Except Panic Bool}
    (h : checkWaitPidDeadlock s.wait_pid_map_helper_ w n p = some r) : s.Explains w p r := by
  induction n generalizing p r with
  | zero => cases h
  | succ n ih =>
    rw [checkWaitPidDeadlock] at h
    split at h
    · rename_i hnone
      cases h
      exact fun hall => hall p .refl hnone
    · rename_i pids hpids
      have hscan := scanPids_explains (p := p) (fun q hq => ⟨pids, hpids, hq⟩) (fun hr => ih hr) h
      have hmem : ∀ {q}, s.WaitsFor p q → q ∈ pids := by
        rintro q ⟨pids', hpids', hq⟩
        obtain rfl : pids = pids' := Option.some.inj (hpids.symm.trans hpids')
        exact hq
      rcases r with e | _ | _
      · exact hscan
      · constructor
        · intro hchain
          obtain ⟨q, hpq, hrest⟩ := TransGen.head'_iff.mp hchain
          obtain ⟨hne, hno, -⟩ := hscan q (hmem hpq)
          rcases Relation.reflTransGen_iff_eq_or_transGen.mp hrest with heq | hrest
          · exact hne heq.symm
          · exact hno hrest
        · intro q hq
          rcases Relation.ReflTransGen.cases_head hq with rfl | ⟨x, hpx, hrest⟩
          · rw [hpids]
            exact Option.some_ne_none _
          · exact (hscan x (hmem hpx)).2.2 q hrest
      · exact hscan

theorem scanPids_ne_none {w : Pid} {check : Pid → Answer} {pids : List Pid}
    (h : ∀ q ∈ pids, check q ≠ none) : scanPids check w pids ≠ none := by
  induction pids with
  | nil => exact Option.some_ne_none _
  | cons q pids ih =>
    rw [scanPids]
    split
    · exact Option.some_ne_none _
    · split
      · exact ih fun x hx => h x (List.mem_cons_of_mem _ hx)
      · exact h q (List.mem_cons_self ..)

/-- The recursion is no deeper than the number of pids handed out. -/
theorem Wf.check_terminates (h : Wf s) (w : Pid) {n : ℕ} (hn : s.checkDepth ≤ n) (p : Pid) :
    checkWaitPidDeadlock s.wait_pid_map_helper_ w n p ≠ none := by
  have hdepth : ∀ n p, WaitGraph.rank s.WaitsFor (Finset.range s.pid_counter_) p < n →
      checkWaitPidDeadlock s.wait_pid_map_helper_ w n p ≠ none := by
    intro n
    induction n with
    | zero =>
      intro p hp
      omega
    | succ n ih =>
      intro p hp
      rw [checkWaitPidDeadlock]
      split
      · exact Option.some_ne_none _
      · rename_i pids hpids
        apply scanPids_ne_none
        intro q hq
        have hmem : p ∈ Finset.range s.pid_counter_ := by
          rw [Finset.mem_range]
          exact h.keys (by rw [hpids]; exact Option.some_ne_none _)
        have hlt := WaitGraph.rank_lt h.acyclic hmem (show s.WaitsFor p q from ⟨pids, hpids, hq⟩)
        exact ih q (by omega)
  apply hdepth
  have hle := WaitGraph.rank_le (R := s.WaitsFor) (Finset.range s.pid_counter_) p
  rw [Finset.card_range] at hle
  exact Nat.lt_of_le_of_lt hle hn

/-! ### What a step can do -/

inductive Effect (s : Registry) : Label → List Event → Registry → Prop
  | nothing {a : Label} {es : List Event} : Effect s a es s
  | newPid {a : Label} : Effect s a [] s.getNewPID
  | added {a : Label} (pid : Pid) (hphase : s.phase pid = .constructing) :
      Effect s a [] { s with
        phase := update s.phase pid .alive
        waitpid_map_ := update s.waitpid_map_ pid (some s.next_address)
        wait_pid_map_helper_ := update s.wait_pid_map_helper_ pid (some [])
        heap := update s.heap s.next_address (some ⟨[]⟩)
        next_address := s.next_address + 1 }
  | dropped (pid : Pid) (cond : ℕ) (hphase : s.phase pid = .alive)
      (hcond : s.waitpid_map_ pid = some cond) :
      Effect s (.removeFromWaitPIDMap pid) (s.broadcast cond).2 (s.dropCond pid cond)
  | got {a : Label} (t : Tid) (current_pid pid : Pid) (cond : ℕ) (pids : List Pid) (hpc : s.pc t = .user)
      (hne : pid ≠ current_pid)
      (hcheck : checkWaitPidDeadlock s.wait_pid_map_helper_ current_pid s.checkDepth pid =
        some (.ok false))
      (hcond : s.waitpid_map_ pid = some cond)
      (hpids : s.wait_pid_map_helper_ current_pid = some pids) :
      Effect s a [] { s with
        wait_pid_map_helper_ := update s.wait_pid_map_helper_ current_pid (some (pids ++ [pid]))
        pc := update s.pc t (.gotCond pid cond) }
  | slept {a : Label} (t : Tid) (pid : Pid) (cond : ℕ) (c : Condition) (hpc : s.pc t = .gotCond pid cond)
      (hheap : s.heap cond = some c) :
      Effect s a [] { s with
        heap := update s.heap cond (some ⟨t :: c.waiters_list_⟩)
        pc := update s.pc t (.sleeping pid cond) }

inductive Failure (s : Registry) : Panic → Prop
  | registered (pid : Pid) (hphase : s.phase pid = .constructing)
      (hmap : s.waitpid_map_ pid ≠ none) : Failure s .alreadyRegistered
  | absent (pid : Pid) (hphase : s.phase pid = .alive) (hmap : s.waitpid_map_ pid = none) :
      Failure s .notRegistered
  | check (current_pid pid : Pid) (e : Panic)
      (hcheck : checkWaitPidDeadlock s.wait_pid_map_helper_ current_pid s.checkDepth pid =
        some (.error e)) : Failure s e
  | endless (current_pid pid : Pid)
      (hcheck : checkWaitPidDeadlock s.wait_pid_map_helper_ current_pid s.checkDepth pid = none) :
      Failure s .endlessRecursion
  | caller (current_pid : Pid) (hphase : s.phase current_pid = .alive)
      (hnone : s.wait_pid_map_helper_ current_pid = none) : Failure s .missingKey
  | deleted (t : Tid) (pid : Pid) (cond : ℕ) (hpc : s.pc t = .gotCond pid cond)
      (hheap : s.heap cond = none) : Failure s .waitOnDeleted

def Spec (s : Registry) (l : Label) : Except Panic (Registry × List Event) → Prop
  | .ok (t, evs) => Effect s l evs t
  | .error e => Failure s e

theorem getCondToWait_spec {t : Tid} {current_pid pid : Pid} (hpc : s.pc t = .user)
    (hphase : s.phase current_pid = .alive) (hne : pid ≠ current_pid) :
    Spec s l (s.getCondToWait t current_pid pid) := by
  unfold getCondToWait
  split
  · exact .endless current_pid pid ‹_›
  · exact .check current_pid pid _ ‹_›
  · exact .nothing
  · rename_i hcheck
    split
    · exact .nothing
    · rename_i cond hcond
      split
      · exact .caller current_pid hphase ‹_›
      · rename_i pids hpids
        exact .got t current_pid pid cond pids hpc hne hcheck hcond hpids

theorem step_spec (s : Registry) (l : Label) : Spec s l (s.step l) := by
  cases l with
  | getNewPID => exact .newPid
  | addToWaitPIDMap pid =>
    rw [step]
    split
    · rename_i hphase
      unfold addToWaitPIDMap
      split
      · rename_i hmap
        exact .registered pid hphase (Option.isSome_iff_ne_none.mp hmap)
      · exact .added pid hphase
    · exact .nothing
  | removeFromWaitPIDMap pid =>
    rw [step]
    split
    · rename_i hphase
      unfold removeFromWaitPIDMap
      split
      · exact .absent pid hphase ‹_›
      · rename_i cond hcond
        exact .dropped pid cond hphase hcond
    · exact .nothing
  | getCondToWait t current_pid pid =>
    rw [step]
    split
    · rename_i hpc
      split
      · rename_i hguard
        exact getCondToWait_spec hpc hguard.1 hguard.2
      · exact .nothing
    · exact .nothing
  | wait t =>
    rw [step]
    split
    · rename_i pid cond hpc
      unfold wait
      split
      · exact .deleted t pid cond hpc ‹_›
      · rename_i c hheap
        exact .slept t pid cond c hpc hheap
    · exact .nothing

@[simp] theorem dropCond_pid_counter_ (s : Registry) (pid : Pid) (cond : ℕ) :
    (s.dropCond pid cond).pid_counter_ = s.pid_counter_ := by
  unfold dropCond broadcast
  split <;> rfl

@[simp] theorem dropCond_phase (s : Registry) (pid : Pid) (cond : ℕ) :
    (s.dropCond pid cond).phase = update s.phase pid .dead := by
  unfold dropCond broadcast
  split <;> rfl

@[simp] theorem dropCond_waitpid_map_ (s : Registry) (pid : Pid) (cond : ℕ) :
    (s.dropCond pid cond).waitpid_map_ = update s.waitpid_map_ pid none := by
  unfold dropCond broadcast
  split <;> rfl

@[simp] theorem dropCond_helper (s : Registry) (pid : Pid) (cond : ℕ) :
    (s.dropCond pid cond).wait_pid_map_helper_ = update s.wait_pid_map_helper_ pid none := by
  unfold dropCond broadcast
  split <;> rfl

/-! ### The steps keep the invariant -/

theorem wf_start : Wf start where
  keys hp := absurd rfl hp
  targets := fun ⟨_, hpids, _⟩ => by cases hpids
  acyclic x hx := by
    obtain ⟨y, -, pids, hpids, -⟩ := TransGen.tail'_iff.mp hx
    cases hpids
  born hp := absurd rfl hp
  mapped := by simp [start]
  listed := by simp [start]

theorem Wf.effect (h : Wf s) (e : Effect s l evs s') : Wf s' := by
  cases e with
  | nothing => exact h
  | newPid =>
    have hfresh : s.phase s.pid_counter_ = .unborn := by
      by_contra hne
      exact Nat.lt_irrefl _ (h.born hne)
    have halive : ∀ p, update s.phase s.pid_counter_ .constructing p = .alive ↔
        s.phase p = .alive := by
      intro p
      by_cases hp : p = s.pid_counter_
      · simp [hp, hfresh]
      · simp [hp]
    refine ⟨fun hp => Nat.lt_succ_of_lt (h.keys hp), fun hpq => Nat.lt_succ_of_lt (h.targets hpq),
      h.acyclic, fun {p} hp => ?_, fun {p} => ?_, fun {p} => ?_⟩
    · by_cases hpc : p = s.pid_counter_
      · rw [hpc]
        exact Nat.lt_succ_self _
      · exact Nat.lt_succ_of_lt (h.born (by simpa [getNewPID, hpc] using hp))
    · exact h.mapped.trans (halive p).symm
    · exact h.listed.trans (halive p).symm
  | added pid hphase =>
    have hnone : s.wait_pid_map_helper_ pid = none := by
      by_contra hne
      have := h.listed.mp hne
      rw [hphase] at this
      cases this
    have hlt : pid < s.pid_counter_ := h.born (by rw [hphase]; simp)
    have hedge : ∀ {p q}, (∃ pids, update s.wait_pid_map_helper_ pid (some []) p = some pids ∧
        q ∈ pids) → s.WaitsFor p q := by
      rintro p q ⟨pids, hpids, hq⟩
      by_cases hp : p = pid
      · have hnil : pids = [] := by simpa [hp, eq_comm] using hpids
        rw [hnil] at hq
        cases hq
      · exact ⟨pids, by simpa [hp] using hpids, hq⟩
    refine ⟨fun {p} hp => ?_, fun hpq => h.targets (hedge hpq), h.acyclic.mono hedge,
      fun {p} hp => ?_, fun {p} => ?_, fun {p} => ?_⟩
    · by_cases hpp : p = pid
      · rw [hpp]
        exact hlt
      · exact h.keys (by simpa [hpp] using hp)
    · by_cases hpp : p = pid
      · rw [hpp]
        exact hlt
      · exact h.born (by simpa [hpp] using hp)
    · by_cases hpp : p = pid
      · simp [hpp]
      · simpa [hpp] using h.mapped (p := p)
    · by_cases hpp : p = pid
      · simp [hpp]
      · simpa [hpp] using h.listed (p := p)
  | dropped pid cond hphase hcond =>
    have hedge : ∀ {p q}, (s.dropCond pid cond).WaitsFor p q → s.WaitsFor p q := by
      rintro p q ⟨pids, hpids, hq⟩
      rw [dropCond_helper] at hpids
      by_cases hp : p = pid
      · simp [hp] at hpids
      · exact ⟨pids, by simpa [hp] using hpids, hq⟩
    refine ⟨fun {p} hp => ?_, fun hpq => ?_, h.acyclic.mono hedge, fun {p} hp => ?_, fun {p} => ?_,
      fun {p} => ?_⟩
    · rw [dropCond_pid_counter_]
      refine h.keys fun hnone => hp ?_
      simp [update_apply, hnone]
    · rw [dropCond_pid_counter_]
      exact h.targets (hedge hpq)
    · rw [dropCond_pid_counter_]
      rw [dropCond_phase] at hp
      by_cases hpp : p = pid
      · exact h.born (by rw [hpp, hphase]; simp)
      · exact h.born (by simpa [hpp] using hp)
    · rw [dropCond_waitpid_map_, dropCond_phase]
      by_cases hpp : p = pid
      · simp [hpp]
      · simpa [hpp] using h.mapped (p := p)
    · rw [dropCond_helper, dropCond_phase]
      by_cases hpp : p = pid
      · simp [hpp]
      · simpa [hpp] using h.listed (p := p)
  | got t current_pid pid cond pids hpc hne hcheck hcond hpids =>
    have hedge : ∀ {p q}, (∃ l, update s.wait_pid_map_helper_ current_pid (some (pids ++ [pid])) p =
        some l ∧ q ∈ l) → WaitGraph.addEdge s.WaitsFor current_pid pid p q := by
      rintro p q ⟨l, hl, hq⟩
      by_cases hp : p = current_pid
      · simp [hp] at hl
        rw [← hl] at hq
        rcases List.mem_append.mp hq with hq | hq
        · exact .inl ⟨pids, by rw [hp, hpids], hq⟩
        · exact .inr ⟨hp, List.mem_singleton.mp hq⟩
      · exact .inl ⟨l, by simpa [hp] using hl, hq⟩
    have hsome : ∀ p, update s.wait_pid_map_helper_ current_pid (some (pids ++ [pid])) p ≠ none ↔
        s.wait_pid_map_helper_ p ≠ none := by
      intro p
      by_cases hp : p = current_pid
      · simp [hp, hpids]
      · simp [hp]
    have hpid : pid < s.pid_counter_ := by
      have := h.mapped.mp (show s.waitpid_map_ pid ≠ none by rw [hcond]; exact Option.some_ne_none _)
      exact h.born (by rw [this]; simp)
    refine ⟨fun {p} hp => h.keys ((hsome p).mp hp), fun hpq => ?_, ?_, h.born, h.mapped,
      fun {p} => (hsome p).trans h.listed⟩
    · rcases hedge hpq with hpq | ⟨-, rfl⟩
      · exact h.targets hpq
      · exact hpid
    · refine WaitGraph.Acyclic.mono (WaitGraph.acyclic_addEdge_iff.mpr ⟨h.acyclic, ?_⟩) hedge
      intro hchain
      have hno := (checkWaitPidDeadlock_explains hcheck).1
      rcases Relation.reflTransGen_iff_eq_or_transGen.mp hchain with heq | hchain
      · exact hne heq.symm
      · exact hno hchain
  | slept t pid cond c hpc hheap => exact ⟨h.keys, h.targets, h.acyclic, h.born, h.mapped, h.listed⟩

theorem wf_of_runs {ok : Registry → Label → Prop} (h : Runs ok tr s) : Wf s := by
  refine h.invariant (I := fun _ s => Wf s) wf_start ?_
  intro tr s l t evs hwf _ hstep
  have hspec := step_spec s l
  rw [hstep] at hspec
  exact hwf.effect hspec

/-- The check ends without a failed look-up, and answers -1 exactly if `pid` waits for `w`. -/
def Answers (s : Registry) (w pid : Pid) : Prop :=
  ∃ b, (∀ n, s.checkDepth ≤ n → checkWaitPidDeadlock s.wait_pid_map_helper_ w n pid = some (.ok b)) ∧
    (b = true ↔ TransGen s.WaitsFor pid w)

theorem Wf.answers (h : Wf s) {w pid : Pid} (hreg : s.AllRegistered pid) : s.Answers w pid := by
  have hok : ∀ n, s.checkDepth ≤ n → ∃ b,
      checkWaitPidDeadlock s.wait_pid_map_helper_ w n pid = some (.ok b) ∧
      (b = true ↔ TransGen s.WaitsFor pid w) := by
    intro n hn
    obtain ⟨r, hr⟩ := Option.ne_none_iff_exists'.mp (h.check_terminates w hn pid)
    have hex := checkWaitPidDeadlock_explains hr
    rcases r with e | _ | _
    · exact absurd hreg hex
    · exact ⟨false, hr, by simpa using hex.1⟩
    · exact ⟨true, hr, fun _ => hex, fun _ => rfl⟩
  obtain ⟨b, -, hb⟩ := hok s.checkDepth le_rfl
  refine ⟨b, fun n hn => ?_, hb⟩
  obtain ⟨b', hr, hb'⟩ := hok n hn
  rw [hr, Bool.eq_iff_iff.mpr (hb'.trans hb.symm)]

theorem Answers.allRegistered {w pid : Pid} (h : s.Answers w pid)
    (hno : ¬TransGen s.WaitsFor pid w) : s.AllRegistered pid := by
  obtain ⟨b, hb, hiff⟩ := h
  have hfalse : b = false := by
    cases b with
    | false => rfl
    | true => exact absurd (hiff.mp rfl) hno
  have hex := checkWaitPidDeadlock_explains (hb _ le_rfl)
  rw [hfalse] at hex
  exact hex.2

/-- In every reachable state the recorded waits are acyclic and the recursion ends. It never looks
up a missing pid, and answers -1 exactly for a chain of waits back to the caller, if and only if
every pid on the chains from `pid_to_wait`, itself included, is registered. -/
theorem checkWaitPidDeadlock_iff (h : Runs (fun _ _ => True) tr s) (pid_to_wait : Pid) :
    WaitGraph.Acyclic s.WaitsFor ∧
    (∀ w n, s.checkDepth ≤ n →
      checkWaitPidDeadlock s.wait_pid_map_helper_ w n pid_to_wait ≠ none) ∧
    ((∀ waited_by, s.Answers waited_by pid_to_wait) ↔ s.AllRegistered pid_to_wait) ∧
    ∀ waited_by, ¬TransGen s.WaitsFor pid_to_wait waited_by →
      (s.Answers waited_by pid_to_wait ↔ s.AllRegistered pid_to_wait) := by
  have hwf := wf_of_runs h
  refine ⟨hwf.acyclic, fun w n hn => hwf.check_terminates w hn _, ⟨fun hall => ?_, fun hreg w =>
    hwf.answers hreg⟩, fun w hno => ⟨fun hans => hans.allRegistered hno, fun hreg =>
    hwf.answers hreg⟩⟩
  -- nobody waits for the next pid, so the check for it follows every chain
  refine (hall s.pid_counter_).allRegistered fun hchain => ?_
  obtain ⟨y, -, hlast⟩ := TransGen.tail'_iff.mp hchain
  exact Nat.lt_irrefl _ (hwf.targets hlast)

/-- The kernel stops when a process waits for a pid that was never created, and when it waits for
a live process that has waited for one that is dead. -/
theorem missing_pid : ∃ tr s tr' s',
    Runs (fun _ _ => True) tr s ∧ s.step (.getCondToWait 0 0 7) = .error .missingKey ∧
    Runs (fun _ _ => True) tr' s' ∧ s'.phase 1 = .alive ∧ s'.phase 2 = .dead ∧
    s'.step (.getCondToWait 0 0 1) = .error .missingKey := by
  have hrun := Machine.runs_of_exec step start
    [.getNewPID, .addToWaitPIDMap 0] rfl
  have hrun' := Machine.runs_of_exec step start
    [.getNewPID, .addToWaitPIDMap 0, .getNewPID, .addToWaitPIDMap 1, .getNewPID,
      .addToWaitPIDMap 2, .getCondToWait 1 1 2, .wait 1, .removeFromWaitPIDMap 2] rfl
  exact ⟨_, _, _, _, hrun, rfl, hrun', rfl, rfl, rfl⟩

/-- Process 1 waits for process 2: the check for 1 answers for every caller. -/
theorem checkWaitPidDeadlock_iff_two : ∃ tr s,
    Runs (fun _ _ => True) tr s ∧ s.WaitsFor 1 2 ∧ s.AllRegistered 1 ∧
    ∀ waited_by, s.Answers waited_by 1 := by
  have hrun := Machine.runs_of_exec step start
    [.getNewPID, .getNewPID, .addToWaitPIDMap 1, .getNewPID, .addToWaitPIDMap 2,
      .getCondToWait 1 1 2] rfl
  have hreg : ∀ s : Registry, s.wait_pid_map_helper_ 1 = some [2] →
      s.wait_pid_map_helper_ 2 = some [] → s.AllRegistered 1 := by
    intro s h1 h2 q hq
    rcases Relation.ReflTransGen.cases_head hq with rfl | ⟨x, ⟨pids, hpids, hx⟩, hrest⟩
    · rw [h1]
      exact Option.some_ne_none _
    · obtain rfl : [2] = pids := Option.some.inj (h1.symm.trans hpids)
      obtain rfl : x = 2 := List.mem_singleton.mp hx
      rcases Relation.ReflTransGen.cases_head hrest with rfl | ⟨y, ⟨pids', hpids', hy⟩, -⟩
      · rw [h2]
        exact Option.some_ne_none _
      · obtain rfl : [] = pids' := Option.some.inj (h2.symm.trans hpids')
        cases hy
  exact ⟨_, _, hrun, ⟨_, rfl, List.mem_singleton.mpr rfl⟩, hreg _ rfl rfl,
    (checkWaitPidDeadlock_iff hrun 1).2.2.1.mpr (hreg _ rfl rfl)⟩

end Registry

end KPanic.WaitPid

import KPanic.Kernel.Locks
import KPanic.Lib.TestAndSet

/-!
# Who may touch a lock

The place of a thread tells which lists it has locked, which mutexes it has, what it waits for and whom
it wakes up. Each of these is a table over the places, and one lemma says how an operation changes it.
-/

namespace KPanic.Locks

open Function
open Machine
open TestAndSet

/-- Where a thread gets by an operation, when the mutex is `busy` and `popped` is taken from the list. -/
def Op.next (busy : Bool) (popped : Option ℕ) : Op → Pc
  | .stay => .idle
  | .testSetLock _ b f => if busy then b else f
  | .popBack _ next => next popped
  | .doChecksBeforeWaiting _ next | .checkStillWaiting next | .lockWaitersList _ next | .unlockWaitersList _ next
  | .pushFront _ next | .sleep next | .resume next | .wake _ next | .assertNotHeld _ next | .pushFrontToHoldingList _ next
  | .setHeldBy _ next | .checkInvalidRelease _ next | .removeFromHoldingList _ next | .clearHeldBy _ next
  | .clearMutex _ _ next | .waitChecks _ next | .signalChecks _ next => next

attribute [simp] Pc.op acquire sleepAndRelease release wakeWaiter Op.next Sleeper.lock Waker.lock Sleeper.resume Waker.resume

/-! ### Tables -/

@[simp]
def AcquirePc.locked : AcquirePc → Bool
  | .testSetLockAgain | .unlockWaitersList | .doChecksAgain => true
  | _ => false

@[simp]
def SleepPc.locked : SleepPc → Bool
  | .pushFront | .unlockWaitersList => true
  | _ => false

@[simp]
def WakePc.locked : WakePc → Bool
  | .popBack | .unlockWaitersList _ => true
  | _ => false

/-- A wait keeps the list of its condition locked while it releases the mutex. -/
def inWait (m : ℕ) (wait : Option (ℕ × Bool)) (l : LockId) : Prop := ∃ w ∈ wait, l = .condition w.1 m

namespace Pc

/-- The thread has locked the list of waiters. -/
@[simp]
def locksList : Pc → LockId → Prop
  | .acquire m p, l => p.locked ∧ l = .mutex m
  | .sleepAndRelease w p, l => p.locked ∧ l = w.lock
  | .release m wait _, l => inWait m wait l
  | .wakeWaiter (.release m wait) p, l => p.locked ∧ l = .mutex m ∨ inWait m wait l
  | .wakeWaiter (.signal c m _) p, l => p.locked ∧ l = .condition c m
  | _, _ => False

/-- The thread has set `mutex_`, and `held_by_` does not say so. -/
@[simp]
def setsMutex : Pc → ℕ → Prop
  | .acquire m .unlockWaitersList, k | .acquire m .assertNotHeld, k | .acquire m .pushFrontToHoldingList, k
  | .acquire m .setHeldBy, k | .release m _ .clearMutex, k => k = m
  | _, _ => False

/-- `held_by_` is the thread. -/
@[simp]
def holds : Pc → ℕ → Prop
  | .release m (some _) .checkInvalidRelease, k | .release m _ .removeFromHoldingList, k | .release m _ .clearHeldBy, k
  | .waitLockWaitersList _ m _, k | .wakeWaiter (.signal _ m _) _, k => k = m
  | _, _ => False

/-- The list that the thread has pushed itself to. -/
@[simp]
def waitsOn : Pc → Option LockId
  | .sleepAndRelease _ .pushFront => none
  | .sleepAndRelease w _ => some w.lock
  | _ => none

@[simp]
def isAsleep : Pc → Bool
  | .sleepAndRelease _ .asleep => true
  | _ => false

/-- The thread has taken `p` from the list, and will wake it up. -/
@[simp]
def wakes : Pc → LockId → ℕ → Prop
  | .wakeWaiter w (.unlockWaitersList (some p)), l, q | .wakeWaiter w (.wake p), l, q => l = w.lock ∧ q = p
  | _, _, _ => False

end Pc

variable {s s' s₀ : State} {t u v x p : ℕ} {m k : ℕ} {l l' : LockId} {i : Pc} {o : Op} {tr evs : List Event} {found : Bool}

/-! ### One operation in the tables -/

theorem locksList_next (busy : Bool) (popped : Option ℕ) : (i.op.next busy popped).locksList l ↔
    match i.op with
    | .lockWaitersList l' _ => l = l' ∨ i.locksList l
    | .unlockWaitersList l' _ => l ≠ l' ∧ i.locksList l
    | _ => i.locksList l := by
  cases i with
  | acquire m p => cases p <;> cases busy <;> simp
  | sleepAndRelease w p =>
    cases w with
    | acquire m => cases p <;> simp
    | wait c m re_acquire_mutex => cases re_acquire_mutex <;> cases p <;> simp
  | release m wait p => cases p <;> simp
  | wakeWaiter w p =>
    cases w with
    | release m wait =>
      have hne : inWait m wait l → l ≠ .mutex m := by
        rintro ⟨_, _, rfl⟩
        simp
      cases p with
      | unlockWaitersList p =>
        cases wait <;> cases p <;> simp [inWait] at hne ⊢
        all_goals grind
      | wake p => cases wait <;> simp [inWait]
      | _ => simp
    | signal c m broadcast =>
      cases p with
      | unlockWaitersList p => cases broadcast <;> cases p <;> simp
      | wake p => cases broadcast <;> simp
      | _ => simp
  | waitLockWaitersList c m re => simp [inWait]
  | _ => simp

/-- A list is changed, and unlocked, by a thread that has locked it. -/
theorem locksList_of_op : match i.op with
    | .unlockWaitersList l _ | .pushFront l _ | .popBack l _ => i.locksList l
    | _ => True := by
  cases i with
  | acquire m p => cases p <;> simp
  | sleepAndRelease w p => cases p <;> simp
  | release m wait p => cases p <;> simp
  | wakeWaiter w p =>
    cases w <;> cases p with
    | unlockWaitersList p => cases p <;> simp
    | _ => simp
  | _ => simp

theorem setsMutex_next (busy : Bool) (popped : Option ℕ) : (i.op.next busy popped).setsMutex k ↔
    match i.op with
    | .testSetLock m _ _ => busy = false ∧ k = m
    | .setHeldBy m _ | .clearMutex m _ _ => k ≠ m ∧ i.setsMutex k
    | .clearHeldBy m _ => k = m ∨ i.setsMutex k
    | _ => i.setsMutex k := by
  cases i with
  | acquire m p => cases p <;> cases busy <;> simp
  | sleepAndRelease w p =>
    cases w with
    | acquire m => cases p <;> simp
    | wait c m re_acquire_mutex => cases re_acquire_mutex <;> cases p <;> simp
  | release m wait p => cases p <;> simp
  | wakeWaiter w p =>
    cases w with
    | release m wait =>
      cases p with
      | unlockWaitersList p => cases wait <;> cases p <;> simp
      | wake p => cases wait <;> simp
      | _ => simp
    | signal c m broadcast =>
      cases p with
      | unlockWaitersList p => cases broadcast <;> cases p <;> simp
      | wake p => cases broadcast <;> simp
      | _ => simp
  | _ => simp

theorem setsMutex_of_op : match i.op with
    | .assertNotHeld m _ | .pushFrontToHoldingList m _ | .setHeldBy m _ | .clearMutex m _ _ => i.setsMutex m
    | .testSetLock _ _ _ => ∀ k, ¬i.setsMutex k
    | _ => True := by
  cases i with
  | acquire m p => cases p <;> simp
  | sleepAndRelease w p => cases p <;> simp
  | release m wait p => cases p <;> simp
  | wakeWaiter w p =>
    cases p with
    | unlockWaitersList p => cases p <;> simp
    | _ => simp
  | _ => simp

theorem holds_next (busy : Bool) (popped : Option ℕ) (h : (i.op.next busy popped).holds k) :
    match i.op with
    | .checkInvalidRelease m _ | .waitChecks m _ | .signalChecks m _ => k = m
    | .clearHeldBy m _ => k ≠ m ∧ i.holds k
    | _ => i.holds k := by
  cases i with
  | acquire m p => cases p <;> cases busy <;> simp at h
  | sleepAndRelease w p =>
    cases w with
    | acquire m => cases p <;> simp at h
    | wait c m re_acquire_mutex => cases re_acquire_mutex <;> cases p <;> simp at h
  | release m wait p => cases p <;> simp at h ⊢ <;> exact h
  | wakeWaiter w p =>
    cases w with
    | release m wait =>
      cases p with
      | unlockWaitersList p => cases wait <;> cases p <;> simp at h
      | wake p => cases wait <;> simp at h
      | _ => simp at h
    | signal c m broadcast =>
      cases p with
      | unlockWaitersList p => cases broadcast <;> cases p <;> simp at h ⊢ <;> exact h
      | wake p => cases broadcast <;> simp at h ⊢; exact h
      | _ => simp at h ⊢; exact h
  | waitLockWaitersList c m re => simp_all
  | _ => simp_all

theorem holds_of_op : match i.op with
    | .removeFromHoldingList m _ | .clearHeldBy m _ => i.holds m
    | _ => True := by
  cases i with
  | acquire m p => cases p <;> simp
  | sleepAndRelease w p => cases p <;> simp
  | release m wait p => cases p <;> simp
  | wakeWaiter w p =>
    cases p with
    | unlockWaitersList p => cases p <;> simp
    | _ => simp
  | _ => simp

theorem waitsOn_next (busy : Bool) (popped : Option ℕ) : (i.op.next busy popped).waitsOn =
    match i.op with
    | .pushFront l _ => some l
    | .resume _ => none
    | _ => i.waitsOn := by
  cases i with
  | acquire m p => cases p <;> cases busy <;> simp
  | sleepAndRelease w p =>
    cases w with
    | acquire m => cases p <;> simp
    | wait c m re_acquire_mutex => cases re_acquire_mutex <;> cases p <;> simp
  | release m wait p => cases p <;> simp
  | wakeWaiter w p =>
    cases w with
    | release m wait =>
      cases p with
      | unlockWaitersList p => cases wait <;> cases p <;> simp
      | wake p => cases wait <;> simp
      | _ => simp
    | signal c m broadcast =>
      cases p with
      | unlockWaitersList p => cases broadcast <;> cases p <;> simp
      | wake p => cases broadcast <;> simp
      | _ => simp
  | _ => simp

theorem isAsleep_next (busy : Bool) (popped : Option ℕ) : (i.op.next busy popped).isAsleep =
    match i.op with
    | .sleep _ => true
    | _ => false := by
  cases i with
  | acquire m p => cases p <;> cases busy <;> simp
  | sleepAndRelease w p =>
    cases w with
    | acquire m => cases p <;> simp
    | wait c m re_acquire_mutex => cases re_acquire_mutex <;> cases p <;> simp
  | release m wait p => cases p <;> simp
  | wakeWaiter w p =>
    cases w with
    | release m wait =>
      cases p with
      | unlockWaitersList p => cases wait <;> cases p <;> simp
      | wake p => cases wait <;> simp
      | _ => simp
    | signal c m broadcast =>
      cases p with
      | unlockWaitersList p => cases broadcast <;> cases p <;> simp
      | wake p => cases broadcast <;> simp
      | _ => simp
  | _ => simp

theorem wakes_next (busy : Bool) (popped : Option ℕ) : (i.op.next busy popped).wakes l p ↔
    match i.op with
    | .popBack l' _ => l = l' ∧ popped = some p
    | .wake _ _ => False
    | _ => i.wakes l p := by
  cases i with
  | acquire m p => cases p <;> cases busy <;> simp
  | sleepAndRelease w p =>
    cases w with
    | acquire m => cases p <;> simp
    | wait c m re_acquire_mutex => cases re_acquire_mutex <;> cases p <;> simp
  | release m wait p => cases p <;> simp
  | wakeWaiter w q =>
    cases w with
    | release m wait =>
      cases q with
      | unlockWaitersList q => cases wait <;> cases q <;> simp
      | wake q => cases wait <;> simp
      | popBack => cases popped <;> simp [eq_comm]
      | _ => simp
    | signal c m broadcast =>
      cases q with
      | unlockWaitersList q => cases broadcast <;> cases q <;> simp
      | wake q => cases broadcast <;> simp
      | popBack => cases popped <;> simp [eq_comm]
      | _ => simp
  | _ => simp

/-- What the place says of a thread that waits, and of one that wakes it up. -/
theorem waits_of_op : match i.op with
    | .pushFront _ _ => i.waitsOn = none
    | .sleep _ => i.waitsOn ≠ none ∧ i.isAsleep = false
    | .resume _ => i.isAsleep = true
    | .wake p _ => ∃ l, ∀ l' q, i.wakes l' q ↔ l' = l ∧ q = p
    | .popBack _ _ => ∀ l p, ¬i.wakes l p
    | _ => True := by
  cases i with
  | acquire m p => cases p <;> simp
  | sleepAndRelease w p => cases p <;> simp
  | release m wait p => cases p <;> simp
  | wakeWaiter w p =>
    cases p with
    | unlockWaitersList p => cases p <;> simp
    | _ => simp
  | _ => simp

theorem op_of_isAsleep (h : i.isAsleep = true) : ∃ next, i.op = .resume next := by
  cases i with
  | sleepAndRelease w p => cases p <;> simp at h ⊢
  | _ => simp at h

theorem not_wakes_of_waitsOn (h : i.waitsOn = some l') : ¬i.wakes l p := by
  cases i with
  | sleepAndRelease w p => simp
  | _ => simp at h

/-! ### The machine -/

/-- What an operation finds. -/
def State.busy (s : State) : Op → Bool
  | .testSetLock m _ _ => s.mutex_ m
  | _ => false

def State.popped (s : State) : Op → Option ℕ
  | .popBack l _ => (s.waiters_list_ l).getLast?
  | _ => none

theorem perform_pc (ho : o ≠ .stay) : (s.perform t o).1.pc = update s.pc t (o.next (s.busy o) (s.popped o)) := by
  cases o with
  | stay => exact absurd rfl ho
  | testSetLock m busy free => cases hm : s.mutex_ m <;> simp [State.perform, State.busy, State.goto, hm]
  | _ => rfl

theorem perform_pc_of_ne (hx : x ≠ t) : (s.perform t o).1.pc x = s.pc x := by
  by_cases ho : o = .stay
  · rw [ho]
    rfl
  · rw [perform_pc ho, update_of_ne hx]

theorem perform_pc_self (ho : o ≠ .stay) : (s.perform t o).1.pc t = o.next (s.busy o) (s.popped o) := by
  rw [perform_pc ho, update_self]

theorem perform_mutex : (s.perform t o).1.mutex_ =
    match o with
    | .testSetLock m _ _ => update s.mutex_ m true
    | .clearMutex m _ _ => update s.mutex_ m false
    | _ => s.mutex_ := by
  cases o with
  | testSetLock m busy free =>
    cases hm : s.mutex_ m with
    | true =>
      dsimp only
      rw [← hm, update_eq_self]
      simp [State.perform, State.goto, hm]
    | false => simp [State.perform, State.goto, hm]
  | _ => rfl

theorem perform_held_by : (s.perform t o).1.held_by_ =
    match o with
    | .setHeldBy m _ => update s.held_by_ m (some t)
    | .clearHeldBy m _ => update s.held_by_ m none
    | _ => s.held_by_ := by
  cases o with
  | testSetLock m busy free => cases hm : s.mutex_ m <;> simp [State.perform, State.goto, hm]
  | _ => rfl

theorem perform_waiters_list_lock : (s.perform t o).1.waiters_list_lock_ =
    match o with
    | .lockWaitersList l _ => update s.waiters_list_lock_ l true
    | .unlockWaitersList l _ => update s.waiters_list_lock_ l false
    | _ => s.waiters_list_lock_ := by
  cases o with
  | testSetLock m busy free => cases hm : s.mutex_ m <;> simp [State.perform, State.goto, hm]
  | _ => rfl

theorem perform_waiters_list : (s.perform t o).1.waiters_list_ =
    match o with
    | .pushFront l _ => update s.waiters_list_ l (t :: s.waiters_list_ l)
    | .popBack l _ => update s.waiters_list_ l (s.waiters_list_ l).dropLast
    | _ => s.waiters_list_ := by
  cases o with
  | testSetLock m busy free => cases hm : s.mutex_ m <;> simp [State.perform, State.goto, hm]
  | _ => rfl

theorem perform_state : (s.perform t o).1.state_ =
    match o with
    | .sleep _ => update s.state_ t .Sleeping
    | .wake p _ => update s.state_ p .Running
    | _ => s.state_ := by
  cases o with
  | testSetLock m busy free => cases hm : s.mutex_ m <;> simp [State.perform, State.goto, hm]
  | _ => rfl

theorem perform_events : (s.perform t o).2 =
    match o with
    | .popBack l _ => [.popped t l (s.waiters_list_ l).getLast?]
    | .wake p _ => [.woken t p]
    | .setHeldBy m _ => [.acquired t m]
    | .checkInvalidRelease m _ => [.releasing t m]
    | .clearMutex m wait _ => (wait.map fun w => .waiting t w.1 m).toList
    | _ => [] := by
  cases o with
  | testSetLock m busy free => cases hm : s.mutex_ m <;> simp [State.perform, State.goto, hm]
  | _ => rfl

theorem step_cases {act : Act} (hs : step s act = .ok (s', evs)) :
    (∃ t f, act = .call t f ∧ s.pc t = .idle ∧ s' = s.goto t f.start ∧ evs = []) ∨
    ∃ t depth, act = .run t depth ∧ s.state_ t = .Running ∧ s.stops depth t (s.pc t).op = none ∧
      (s.pc t).op ≠ .stay ∧ (s', evs) = s.perform t (s.pc t).op := by
  cases act with
  | call t f =>
    simp only [step] at hs
    split at hs
    · rename_i hidle
      cases hs
      exact .inl ⟨t, f, rfl, hidle, rfl, rfl⟩
    · cases hs
  | run t depth =>
    simp only [step] at hs
    split at hs
    · cases hs
    · rename_i hawake
      split at hs
      · cases hs
      · rename_i hstops
        refine .inr ⟨t, depth, rfl, ?_, hstops, ?_, (Except.ok.inj hs).symm⟩
        · cases hst : s.state_ t with
          | Running => rfl
          | Sleeping => exact absurd hst hawake
        · intro hstay
          rw [hstay] at hstops
          cases hstops

theorem step_run {depth : ℕ} (hawake : s.state_ t = .Running) (hstops : s.stops depth t (s.pc t).op = none) :
    step s (.run t depth) = .ok (s.perform t (s.pc t).op) := by
  simp only [step, hawake, hstops]
  rfl

/-! ### The owners of the flags -/

/-- Who has set the flags, and who is in `held_by_`. -/
structure Guards (s : State) : Prop where
  lists : Guarded (fun t l => (s.pc t).locksList l) s.waiters_list_lock_
  mutexes : Guarded (fun t m => (s.pc t).setsMutex m ∨ s.held_by_ m = some t) s.mutex_
  fresh : ∀ {t m}, (s.pc t).setsMutex m → s.held_by_ m = none
  holds : ∀ {t m}, (s.pc t).holds m → s.held_by_ m = some t

theorem start_tables (f : Call) : (∀ l, ¬f.start.locksList l) ∧ (∀ k, ¬f.start.setsMutex k) ∧ (∀ k, ¬f.start.holds k) ∧
    f.start.waitsOn = none ∧ f.start.isAsleep = false ∧ ∀ l p, ¬f.start.wakes l p := by
  cases f <;> simp [Call.start, inWait]

/-- What a table says after a step, of the thread or of another one. -/
theorem table_update {P : Pc → Prop} {i : Pc} (hpc : s'.pc = update s.pc t i) (h : P (s'.pc x)) :
    x = t ∧ P i ∨ x ≠ t ∧ P (s.pc x) := by
  rw [hpc] at h
  by_cases hx : x = t
  · rw [hx, update_self] at h
    exact .inl ⟨hx, h⟩
  · rw [update_of_ne hx] at h
    exact .inr ⟨hx, h⟩

/-- A step adds nothing to a table. -/
theorem table_keep {P : Pc → Prop} {i : Pc} (hpc : s'.pc = update s.pc t i) (hP : P i → P (s.pc t)) (h : P (s'.pc x)) :
    P (s.pc x) := by
  obtain ⟨rfl, h⟩ | ⟨-, h⟩ := table_update hpc h
  · exact hP h
  · exact h

theorem goto_pc_self (s : State) (t : ℕ) (i : Pc) : (s.goto t i).pc t = i := update_self _ _ _

theorem goto_pc_of_ne {i : Pc} (hx : x ≠ t) : (s.goto t i).pc x = s.pc x := update_of_ne hx _ _

theorem Guards.call (h : Guards s) (f : Call) : Guards (s.goto t f.start) := by
  obtain ⟨hlists, hsets, hholds, -⟩ := start_tables f
  have hpc : (s.goto t f.start).pc = update s.pc t f.start := rfl
  exact ⟨h.lists.keep fun x l => table_keep (P := (·.locksList l)) hpc fun hl => absurd hl (hlists l),
    h.mutexes.keep fun x m => Or.imp_left (table_keep (P := (·.setsMutex m)) hpc fun hm => absurd hm (hsets m)),
    fun {x m} hx => h.fresh (table_keep (P := (·.setsMutex m)) hpc (fun hm => absurd hm (hsets m)) hx),
    fun {x m} hx => h.holds (table_keep (P := (·.holds m)) hpc (fun hm => absurd hm (hholds m)) hx)⟩

section

variable {depth : ℕ}

theorem Guards.lists_perform (h : Guards s) (ho : (s.pc t).op ≠ .stay) (hstops : s.stops depth t (s.pc t).op = none) :
    Guarded (fun x l => ((s.perform t (s.pc t).op).1.pc x).locksList l) (s.perform t (s.pc t).op).1.waiters_list_lock_ := by
  have hnext := fun l => locksList_next (i := s.pc t) (l := l) (s.busy (s.pc t).op) (s.popped (s.pc t).op)
  have hneed := locksList_of_op (i := s.pc t)
  have hpc := perform_pc (s := s) (t := t) ho
  rw [perform_waiters_list_lock]
  generalize (s.pc t).op = o at *
  cases o with
  | lockWaitersList l next =>
    have hfree : s.waiters_list_lock_ l = false := by simpa [State.stops] using hstops
    refine h.lists.take (t := t) hfree fun x k hx => ?_
    obtain ⟨rfl, hat⟩ | ⟨-, hat⟩ := table_update (P := (·.locksList k)) hpc hx
    · exact ((hnext k).mp hat).elim (fun hk => .inr ⟨rfl, hk⟩) .inl
    · exact .inl hat
  | unlockWaitersList l next =>
    refine h.lists.drop (t := t) hneed fun x k hx => ?_
    obtain ⟨rfl, hat⟩ | ⟨hne, hat⟩ := table_update (P := (·.locksList k)) hpc hx
    · obtain ⟨hk, hold⟩ := (hnext k).mp hat
      exact ⟨hold, fun heq => hk heq.2⟩
    · exact ⟨hat, fun heq => hne heq.1⟩
  | _ => exact h.lists.keep fun x k => table_keep (P := (·.locksList k)) hpc (hnext k).mp

theorem Guards.mutexes_perform (h : Guards s) (ho : (s.pc t).op ≠ .stay) :
    Guarded (fun x m => ((s.perform t (s.pc t).op).1.pc x).setsMutex m ∨
      (s.perform t (s.pc t).op).1.held_by_ m = some x) (s.perform t (s.pc t).op).1.mutex_ := by
  have hnext := fun m => setsMutex_next (i := s.pc t) (k := m) (s.busy (s.pc t).op) (s.popped (s.pc t).op)
  have hneed := setsMutex_of_op (i := s.pc t)
  have hholder := holds_of_op (i := s.pc t)
  have hpc := perform_pc (s := s) (t := t) ho
  rw [perform_mutex, perform_held_by]
  generalize (s.pc t).op = o at *
  cases o with
  | testSetLock m b f =>
    dsimp only
    cases hm : s.mutex_ m with
    | true =>
      rw [← hm, update_eq_self]
      refine h.mutexes.keep fun x k => Or.imp_left (table_keep (P := (·.setsMutex k)) hpc fun hx => ?_)
      obtain ⟨hfree, -⟩ := (hnext k).mp hx
      rw [State.busy, hm] at hfree
      cases hfree
    | false =>
      refine h.mutexes.take (t := t) hm fun x k hx => ?_
      obtain hx | hx := hx
      · obtain ⟨rfl, hat⟩ | ⟨-, hat⟩ := table_update (P := (·.setsMutex k)) hpc hx
        · exact .inr ⟨rfl, ((hnext k).mp hat).2⟩
        · exact .inl (.inl hat)
      · exact .inl (.inr hx)
  | clearMutex m wait next =>
    refine h.mutexes.drop (t := t) (.inl hneed) fun x k hx => ?_
    obtain hx | hx := hx
    · obtain ⟨rfl, hat⟩ | ⟨hne, hat⟩ := table_update (P := (·.setsMutex k)) hpc hx
      · obtain ⟨hk, hold⟩ := (hnext k).mp hat
        exact ⟨.inl hold, fun heq => hk heq.2⟩
      · exact ⟨.inl hat, fun heq => hne heq.1⟩
    · dsimp only at hx
      refine ⟨.inr hx, ?_⟩
      rintro ⟨rfl, rfl⟩
      rw [h.fresh hneed] at hx
      cases hx
  | setHeldBy m next =>
    refine h.mutexes.keep fun x k hx => ?_
    obtain hx | hx := hx
    · exact .inl (table_keep (P := (·.setsMutex k)) hpc (fun hx => ((hnext k).mp hx).2) hx)
    · dsimp only at hx
      by_cases hk : k = m
      · rw [hk, update_self] at hx
        cases hx
        rw [hk]
        exact .inl hneed
      · rw [update_of_ne hk] at hx
        exact .inr hx
  | clearHeldBy m next =>
    refine h.mutexes.keep fun x k hx => ?_
    obtain hx | hx := hx
    · obtain ⟨rfl, hat⟩ | ⟨-, hat⟩ := table_update (P := (·.setsMutex k)) hpc hx
      · obtain rfl | hold := (hnext k).mp hat
        · exact .inr (h.holds hholder)
        · exact .inl hold
      · exact .inl hat
    · dsimp only at hx
      by_cases hk : k = m
      · rw [hk, update_self] at hx
        cases hx
      · rw [update_of_ne hk] at hx
        exact .inr hx
  | _ => exact h.mutexes.keep fun x k => Or.imp_left (table_keep (P := (·.setsMutex k)) hpc (hnext k).mp)

theorem Guards.owner (h : Guards s) (ht : (s.pc t).setsMutex m ∨ s.held_by_ m = some t)
    (hu : (s.pc u).setsMutex m ∨ s.held_by_ m = some u) : t = u := h.mutexes.once ht hu

theorem stops_held (hstops : s.stops depth t o = none) : match o with
    | .checkInvalidRelease m _ | .waitChecks m _ | .signalChecks m _ => s.held_by_ m = some t
    | _ => True := by
  cases o with
  | checkInvalidRelease m next => simpa [State.stops, State.assert] using hstops
  | signalChecks m next => simpa [State.stops, State.assert] using hstops
  | waitChecks m next =>
    simp only [State.stops] at hstops
    split at hstops
    · cases hstops
    · rename_i hheld
      exact not_not.mp fun hne => hheld (.inl hne)
  | _ => trivial

theorem Guards.fresh_perform (h : Guards s) (ho : (s.pc t).op ≠ .stay)
    (hx : ((s.perform t (s.pc t).op).1.pc x).setsMutex k) : (s.perform t (s.pc t).op).1.held_by_ k = none := by
  have hnext := setsMutex_next (i := s.pc t) (k := k) (s.busy (s.pc t).op) (s.popped (s.pc t).op)
  have hneed := setsMutex_of_op (i := s.pc t)
  have hat := table_update (P := (·.setsMutex k)) (perform_pc ho) hx
  rw [perform_held_by]
  generalize (s.pc t).op = o at *
  cases o with
  | testSetLock m b f =>
    obtain ⟨rfl, hself⟩ | ⟨-, hold⟩ := hat
    · obtain ⟨hfree, rfl⟩ := hnext.mp hself
      refine Option.eq_none_iff_forall_ne_some.mpr fun u hu => ?_
      exact h.mutexes.not_own hfree (.inr hu)
    · exact h.fresh hold
  | setHeldBy m next =>
    dsimp only
    have hk : k ≠ m := by
      rintro rfl
      obtain ⟨rfl, hself⟩ | ⟨hne, hold⟩ := hat
      · exact (hnext.mp hself).1 rfl
      · exact hne (h.owner (.inl hold) (.inl hneed))
    rw [update_of_ne hk]
    obtain ⟨rfl, hself⟩ | ⟨-, hold⟩ := hat
    · exact h.fresh (hnext.mp hself).2
    · exact h.fresh hold
  | clearHeldBy m next =>
    dsimp only
    by_cases hk : k = m
    · rw [hk, update_self]
    · rw [update_of_ne hk]
      obtain ⟨rfl, hself⟩ | ⟨-, hold⟩ := hat
      · exact h.fresh ((hnext.mp hself).resolve_left hk)
      · exact h.fresh hold
  | clearMutex m wait next =>
    obtain ⟨rfl, hself⟩ | ⟨-, hold⟩ := hat
    · exact h.fresh (hnext.mp hself).2
    · exact h.fresh hold
  | _ =>
    obtain ⟨rfl, hself⟩ | ⟨-, hold⟩ := hat
    · exact h.fresh (hnext.mp hself)
    · exact h.fresh hold

theorem Guards.holds_perform (h : Guards s) (ho : (s.pc t).op ≠ .stay) (hstops : s.stops depth t (s.pc t).op = none)
    (hx : ((s.perform t (s.pc t).op).1.pc x).holds k) : (s.perform t (s.pc t).op).1.held_by_ k = some x := by
  have hnext := holds_next (i := s.pc t) (k := k) (s.busy (s.pc t).op) (s.popped (s.pc t).op)
  have hneed := setsMutex_of_op (i := s.pc t)
  have hholder := holds_of_op (i := s.pc t)
  have hheld := stops_held hstops
  have hat := table_update (P := (·.holds k)) (perform_pc ho) hx
  rw [perform_held_by]
  generalize (s.pc t).op = o at *
  cases o with
  | setHeldBy m next =>
    dsimp only
    obtain ⟨rfl, hself⟩ | ⟨hne, hold⟩ := hat
    · by_cases hk : k = m
      · rw [hk, update_self]
      · rw [update_of_ne hk]
        exact h.holds (hnext hself)
    · have hk : k ≠ m := by
        rintro rfl
        exact hne (h.owner (.inr (h.holds hold)) (.inl hneed))
      rw [update_of_ne hk]
      exact h.holds hold
  | clearHeldBy m next =>
    dsimp only
    have hk : k ≠ m := by
      rintro rfl
      obtain ⟨rfl, hself⟩ | ⟨hne, hold⟩ := hat
      · exact (hnext hself).1 rfl
      · exact hne (h.owner (.inr (h.holds hold)) (.inr (h.holds hholder)))
    rw [update_of_ne hk]
    obtain ⟨rfl, hself⟩ | ⟨-, hold⟩ := hat
    · exact h.holds (hnext hself).2
    · exact h.holds hold
  | checkInvalidRelease m next =>
    obtain ⟨rfl, hself⟩ | ⟨-, hold⟩ := hat
    · rw [show k = m from hnext hself]
      exact hheld
    · exact h.holds hold
  | waitChecks m next =>
    obtain ⟨rfl, hself⟩ | ⟨-, hold⟩ := hat
    · rw [show k = m from hnext hself]
      exact hheld
    · exact h.holds hold
  | signalChecks m next =>
    obtain ⟨rfl, hself⟩ | ⟨-, hold⟩ := hat
    · rw [show k = m from hnext hself]
      exact hheld
    · exact h.holds hold
  | _ =>
    obtain ⟨rfl, hself⟩ | ⟨-, hold⟩ := hat
    · exact h.holds (hnext hself)
    · exact h.holds hold

theorem Guards.perform (h : Guards s) (ho : (s.pc t).op ≠ .stay) (hstops : s.stops depth t (s.pc t).op = none) :
    Guards (s.perform t (s.pc t).op).1 :=
  ⟨h.lists_perform ho hstops, h.mutexes_perform ho, h.fresh_perform ho, h.holds_perform ho hstops⟩

end

theorem Boot.guards (h : Boot s) : Guards s := by
  refine ⟨⟨fun {t l} hl => ?_, fun {t u l} hl => ?_⟩, ⟨fun {t m} hm => ?_, fun {t u m} hm => ?_⟩, fun {t m} hm => ?_,
    fun {t m} hm => ?_⟩
  all_goals simp [h.pc t, h.held_by_] at *

theorem Guards.step (h : Guards s) {act : Act} (hs : Locks.step s act = .ok (s', evs)) : Guards s' := by
  obtain ⟨t, f, -, -, rfl, -⟩ | ⟨t, depth, -, -, hstops, ho, heq⟩ := step_cases hs
  · exact h.call f
  · have hperform := h.perform ho hstops
    rw [← heq] at hperform
    exact hperform

/-- No thread uses a lock. -/
def noCalls : State where
  mutex_ _ := false
  held_by_ _ := none
  waiters_list_ _ := []
  waiters_list_lock_ _ := false
  pc _ := .idle
  state_ _ := .Running
  lock_waiting_on_ _ := none
  holding_lock_list_ _ := []

theorem noCalls_boot : Boot noCalls :=
  ⟨fun _ => rfl, fun _ => rfl, fun _ => rfl, fun _ => rfl, fun _ => rfl, fun _ => rfl, fun _ => rfl, fun _ => rfl⟩

end KPanic.Locks

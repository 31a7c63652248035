import KPanic.Kernel.WaiterQueues

/-!
# Mutexes

`release` resets `mutex_` before it looks at the list, and `acquire` tests `mutex_` again when it has
locked the list. So while a free mutex has waiters there is a thread that will take one of them from the
list, has taken one, or will itself try the mutex.
-/

namespace KPanic.Locks

open Function
open Machine

namespace Pc

@[simp]
def insideAcquire : Pc → ℕ → Prop
  | .acquire m _, k | .sleepAndRelease (.acquire m) _, k => k = m
  | _, _ => False

@[simp]
def insideRelease : Pc → ℕ → Prop
  | .release m _ _, k | .wakeWaiter (.release m _) _, k => k = m
  | _, _ => False

/-- A waiter will be taken from the list, or was and will be woken up, or tries the mutex. -/
@[simp]
def rescues : Pc → ℕ → Prop
  | .wakeWaiter (.release _ _) (.unlockWaitersList none), _ => False
  | .wakeWaiter (.release m _) _, k => k = m
  | .acquire m .testSetLock, k | .acquire m .checkStillWaiting, k | .acquire m .lockWaitersList, k
  | .acquire m .testSetLockAgain, k | .sleepAndRelease (.acquire m) .asleep, k => k = m
  | _, _ => False

/-- The thread has seen the mutex busy, and will push itself to the list. -/
@[simp]
def commits : Pc → ℕ → Prop
  | .acquire m .doChecksAgain, k | .sleepAndRelease (.acquire m) .pushFront, k => k = m
  | _, _ => False

/-- The thread is about to leave `held_by_`. -/
@[simp]
def removes : Pc → ℕ → Prop
  | .release m _ .removeFromHoldingList, k | .release m _ .clearHeldBy, k => k = m
  | _, _ => False

end Pc

variable {s s' s₀ : State} {t u v x p m k : ℕ} {l l' : LockId} {i : Pc} {o : Op} {tr evs : List Event} {depth : ℕ}

/-- No thread is left to look after the waiters of a free mutex. -/
def LostWakeup (s : State) (m : ℕ) : Prop :=
  s.mutex_ m = false ∧ (∃ t ∈ s.waiters_list_ (.mutex m), s.state_ t = .Sleeping) ∧
    ∀ t, ¬(s.pc t).insideRelease m ∧ ¬((s.pc t).insideAcquire m ∧ s.state_ t = .Running)

/-! ### Tables -/

theorem rescues_next (busy : Bool) (popped : Option ℕ) (h : i.rescues k) :
    (i.op.next busy popped).rescues k ∧ (∀ next, i.op ≠ .sleep next) ∨ (∃ b f, i.op = .testSetLock k b f) ∨
      (∃ next, i.op = .popBack (.mutex k) next) ∨ ∃ p next, i.op = .wake p next ∧ i.wakes (.mutex k) p := by
  cases i with
  | acquire m p => cases p <;> simp at h ⊢ <;> simp [h]
  | sleepAndRelease w p =>
    cases w <;> cases p <;> simp at h ⊢
    exact h
  | wakeWaiter w p =>
    cases w with
    | release m wait =>
      cases p with
      | unlockWaitersList p => cases p <;> simp at h ⊢; exact h
      | _ => simp at h ⊢; simp [h]
    | signal c m broadcast => simp at h
  | _ => simp at h

theorem commits_next (busy : Bool) (popped : Option ℕ) (h : (i.op.next busy popped).commits k) : match i.op with
    | .testSetLock m _ _ => k = m ∧ busy = true
    | .doChecksBeforeWaiting _ _ => i.commits k
    | _ => False := by
  cases i with
  | acquire m p => cases p <;> cases busy <;> simp at h ⊢ <;> exact h
  | sleepAndRelease w p =>
    cases w with
    | acquire m => cases p <;> simp at h
    | wait c m re_acquire_mutex => cases re_acquire_mutex <;> cases p <;> simp at h
  | release m wait p => cases p <;> simp at h
  | wakeWaiter w p =>
    cases w with
    | release m wait =>
      cases p with
      | unlockWaitersList p => cases wait <;> cases p <;> simp at h
      | wake p => cases wait <;> simp at h
      | _ => simp at h
    | signal c m broadcast =>
      cases p with
      | unlockWaitersList p => cases broadcast <;> cases p <;> simp at h
      | wake p => cases broadcast <;> simp at h
      | _ => simp at h
  | _ => simp at h

theorem locksList_of_commits (h : i.commits k) : i.locksList (.mutex k) := by
  cases i with
  | acquire m p => cases p <;> simp at h ⊢; exact h
  | sleepAndRelease w p => cases w <;> cases p <;> simp at h ⊢; exact h
  | _ => simp at h

/-- What is done to the list of a mutex, and after the reset of `mutex_`. -/
theorem mutex_of_op (busy : Bool) (popped : Option ℕ) : match i.op with
    | .pushFront l _ => ∀ m, l = .mutex m → i.commits m
    | .popBack l _ => ∀ m p, l = .mutex m → popped = some p → (i.op.next busy popped).rescues m
    | .clearMutex m _ _ => (i.op.next busy popped).rescues m
    | _ => True := by
  cases i with
  | acquire m p => cases p <;> simp
  | sleepAndRelease w p =>
    cases w <;> cases p <;> simp
  | release m wait p => cases p <;> simp
  | wakeWaiter w p =>
    cases w <;> cases p with
    | unlockWaitersList p => cases p <;> simp
    | popBack => simp +contextual
    | _ => simp
  | _ => simp

theorem removes_next (busy : Bool) (popped : Option ℕ) (h : (i.op.next busy popped).removes k) : match i.op with
    | .checkInvalidRelease m _ => k = m
    | .removeFromHoldingList _ _ => i.removes k
    | _ => False := by
  cases i with
  | acquire m p => cases p <;> cases busy <;> simp at h
  | sleepAndRelease w p =>
    cases w with
    | acquire m => cases p <;> simp at h
    | wait c m re_acquire_mutex => cases re_acquire_mutex <;> cases p <;> simp at h
  | release m wait p => cases p <;> simp at h ⊢ <;> exact h
  | wakeWaiter w p =>
    cases w with
    | release m wait =>
      cases p with
      | unlockWaitersList p => cases wait <;> cases p <;> simp at h
      | wake p => cases wait <;> simp at h
      | _ => simp at h
    | signal c m broadcast =>
      cases p with
      | unlockWaitersList p => cases broadcast <;> cases p <;> simp at h
      | wake p => cases broadcast <;> simp at h
      | _ => simp at h
  | _ => simp at h

theorem removes_of_op : match i.op with
    | .clearHeldBy m _ => i.removes m
    | _ => True := by
  cases i with
  | acquire m p => cases p <;> simp
  | sleepAndRelease w p => cases p <;> simp
  | release m wait p => cases p <;> simp
  | wakeWaiter w p =>
    cases p with
    | unlockWaitersList p => cases p <;> simp
    | _ => simp
  | _ => simp

/-! ### Waiters are looked after -/

def Rescues (s : State) (t m : ℕ) : Prop := (s.pc t).rescues m ∧ s.state_ t = .Running

def Rescued (s : State) (m : ℕ) : Prop :=
  s.mutex_ m = false → (s.waiters_list_ (.mutex m) ≠ [] ∨ ∃ t, (s.pc t).commits m) → ∃ t, Rescues s t m

/-- Only the thread itself falls asleep. -/
theorem perform_running (hx : s.state_ x = .Running) (hsleep : x = t → ∀ next, o ≠ .sleep next) :
    (s.perform t o).1.state_ x = .Running := by
  rw [perform_state]
  cases o with
  | sleep next =>
    have hxt : x ≠ t := fun heq => hsleep heq next rfl
    exact (update_of_ne hxt _ _).trans hx
  | wake q next =>
    by_cases hxq : x = q
    · subst hxq
      exact update_self _ _ _
    · exact (update_of_ne hxq _ _).trans hx
  | _ => exact hx

theorem insideAcquire_asleep (ha : i.isAsleep = true) (hon : i.waitsOn = some (.mutex m)) : i.rescues m := by
  cases i with
  | sleepAndRelease w p =>
    cases w <;> cases p <;> simp at ha hon ⊢
    exact hon.symm
  | _ => simp at ha

/-- A thread that rescues goes on to do so, but for the steps that take the mutex or a waiter. -/
theorem Rescues.perform (h : Rescues s u m) (hq : Queues s) (ho : (s.pc t).op ≠ .stay)
    (hstops : s.stops depth t (s.pc t).op = none) (htest : ∀ b f, (s.pc t).op ≠ .testSetLock m b f)
    (hpop : ∀ next, (s.pc t).op ≠ .popBack (.mutex m) next) : ∃ x, Rescues (s.perform t (s.pc t).op).1 x m := by
  obtain ⟨hu, hrunning⟩ := h
  by_cases hut : u = t
  · subst hut
    obtain ⟨hnext, hsleep⟩ | ⟨b, f, hop⟩ | ⟨next, hop⟩ | ⟨p, next, hop, hwakes⟩ :=
      rescues_next (s.busy (s.pc u).op) (s.popped (s.pc u).op) hu
    · refine ⟨u, ?_, perform_running hrunning fun _ => hsleep⟩
      rw [perform_pc_self ho]
      exact hnext
    · exact absurd hop (htest b f)
    · exact absurd hop (hpop next)
    · -- The thread that is woken up will try the mutex.
      have hsleeping : s.state_ p = .Sleeping := by
        rw [hop] at hstops
        simpa [State.stops] using hstops
      have hwaits := (hq.popped hwakes).1
      have hpu : p ≠ u := by
        rintro rfl
        rw [hrunning] at hsleeping
        cases hsleeping
      refine ⟨p, ?_, ?_⟩
      · rw [perform_pc_of_ne hpu]
        exact insideAcquire_asleep (hq.asleep hsleeping) hwaits.1
      · rw [perform_state, hop]
        exact update_self _ _ _
  · refine ⟨u, ?_, perform_running hrunning fun heq => absurd heq hut⟩
    rw [perform_pc_of_ne hut]
    exact hu

/-- The waiters of a free mutex, and who is going to be one, were there before the step. -/
theorem waiting_before (ho : (s.pc t).op ≠ .stay) (htest : ∀ b f, (s.pc t).op ≠ .testSetLock m b f)
    (hwait : (s.perform t (s.pc t).op).1.waiters_list_ (.mutex m) ≠ [] ∨ ∃ u, ((s.perform t (s.pc t).op).1.pc u).commits m) :
    s.waiters_list_ (.mutex m) ≠ [] ∨ ∃ u, (s.pc u).commits m := by
  obtain hne | ⟨u, hu⟩ := hwait
  · obtain ⟨x, hx⟩ := List.exists_mem_of_ne_nil _ hne
    obtain hx | ⟨rfl, next, hop⟩ := mem_waiters_perform hx
    · exact .inl (List.ne_nil_of_mem hx)
    · have hplace := mutex_of_op (i := s.pc x) false none
      rw [hop] at hplace
      exact .inr ⟨x, hplace m rfl⟩
  · refine .inr ⟨u, ?_⟩
    obtain ⟨rfl, hat⟩ | ⟨-, hat⟩ := table_update (P := (·.commits m)) (perform_pc ho) hu
    · have hnext := commits_next (s.busy (s.pc u).op) (s.popped (s.pc u).op) hat
      cases hop : (s.pc u).op with
      | testSetLock k b f =>
        rw [hop] at hnext
        obtain ⟨rfl, -⟩ := hnext
        exact absurd hop (htest b f)
      | doChecksBeforeWaiting k next =>
        rw [hop] at hnext
        exact hnext
      | _ =>
        rw [hop] at hnext
        exact hnext.elim
    · exact hat

/-- A waiter is taken from the list. If there is none, then nobody is going to be one: the list is locked. -/
theorem Rescued.perform_popBack (hg : Guards s) (ho : (s.pc t).op ≠ .stay) (hawake : s.state_ t = .Running)
    {next : Option ℕ → Pc} (hop : (s.pc t).op = .popBack (.mutex m) next) : Rescued (s.perform t (s.pc t).op).1 m := by
  intro _ hwait
  have hplace := mutex_of_op (i := s.pc t) (s.busy (s.pc t).op) (s.popped (s.pc t).op)
  have hlocked := locksList_of_op (i := s.pc t)
  have hself := perform_pc_self (s := s) (t := t) ho
  have hbefore := waiting_before ho (fun b f => by rw [hop]; simp) hwait
  rw [hop] at hplace hself hlocked
  cases hlast : (s.waiters_list_ (.mutex m)).getLast? with
  | some p =>
    refine ⟨t, ?_, perform_running hawake fun _ next' => by rw [hop]; simp⟩
    rw [hop, hself]
    exact hplace m p rfl hlast
  | none =>
    have hempty := List.getLast?_eq_none_iff.mp hlast
    obtain hne | ⟨u, hu⟩ := hbefore
    · exact absurd hempty hne
    · obtain rfl := hg.lists.once (locksList_of_commits hu) hlocked
      exfalso
      revert hu hop
      cases s.pc u with
      | acquire k p => cases p <;> simp
      | sleepAndRelease w p => cases p <;> simp
      | _ => simp

theorem Rescued.perform (h : Rescued s m) (hg : Guards s) (hq : Queues s) (ho : (s.pc t).op ≠ .stay)
    (hawake : s.state_ t = .Running) (hstops : s.stops depth t (s.pc t).op = none) :
    Rescued (s.perform t (s.pc t).op).1 m := by
  by_cases hpop : ∃ next, (s.pc t).op = .popBack (.mutex m) next
  · obtain ⟨next, hop⟩ := hpop
    exact perform_popBack hg ho hawake hop
  · intro hfree hwait
    have htest : ∀ b f, (s.pc t).op ≠ .testSetLock m b f := by
      intro b f hop
      rw [perform_mutex, hop] at hfree
      dsimp only at hfree
      rw [update_self] at hfree
      cases hfree
    by_cases hclear : ∃ wait next, (s.pc t).op = .clearMutex m wait next
    · obtain ⟨wait, next, hop⟩ := hclear
      have hplace := mutex_of_op (i := s.pc t) (s.busy (s.pc t).op) (s.popped (s.pc t).op)
      refine ⟨t, ?_, perform_running hawake fun _ next => by rw [hop]; simp⟩
      rw [perform_pc_self ho]
      rw [hop] at hplace ⊢
      exact hplace
    · have hsame : s.mutex_ m = false := by
        rw [perform_mutex] at hfree
        cases hop : (s.pc t).op with
        | testSetLock k b f =>
          rw [hop] at hfree
          have hk : m ≠ k := fun heq => htest b f (heq ▸ hop)
          exact (update_of_ne hk _ _).symm.trans hfree
        | clearMutex k wait next =>
          rw [hop] at hfree
          have hk : m ≠ k := fun heq => hclear ⟨wait, next, heq ▸ hop⟩
          exact (update_of_ne hk _ _).symm.trans hfree
        | _ =>
          rw [hop] at hfree
          exact hfree
      obtain ⟨u, hu⟩ := h hsame (waiting_before ho htest hwait)
      exact hu.perform hq ho hstops htest fun next hop => hpop ⟨next, hop⟩

theorem Rescued.call (h : Rescued s m) (hidle : s.pc t = .idle) (f : Call) : Rescued (s.goto t f.start) m := by
  have hpc : (s.goto t f.start).pc = update s.pc t f.start := rfl
  have hcommits : ¬f.start.commits m := by cases f <;> simp [Call.start]
  intro hfree hwait
  have hbefore : s.waiters_list_ (.mutex m) ≠ [] ∨ ∃ u, (s.pc u).commits m :=
    hwait.imp_right fun hex => hex.imp fun u hu => table_keep (P := (·.commits m)) hpc (fun hc => absurd hc hcommits) hu
  obtain ⟨u, hu, hrunning⟩ := h hfree hbefore
  refine ⟨u, ?_, hrunning⟩
  have hut : u ≠ t := by
    rintro rfl
    rw [hidle] at hu
    exact hu
  rw [hpc, update_of_ne hut]
  exact hu

theorem Rescued.not_lost (h : Rescued s m) : ¬LostWakeup s m := by
  rintro ⟨hfree, ⟨t, ht, -⟩, hnone⟩
  obtain ⟨u, hu, hrunning⟩ := h hfree (.inl (List.ne_nil_of_mem ht))
  obtain ⟨hrelease, hacquire⟩ := hnone u
  revert hu hrelease hacquire
  cases s.pc u with
  | acquire k p => cases p <;> simp +contextual [hrunning]
  | sleepAndRelease w p => cases w <;> cases p <;> simp +contextual [hrunning]
  | wakeWaiter w p =>
    cases w with
    | release k wait =>
      cases p with
      | unlockWaitersList p => cases p <;> simp +contextual
      | _ => simp +contextual
    | signal c k broadcast => simp
  | _ => simp

/-! ### The holder -/

/-- The thread has acquired the mutex, and has not released it since. -/
def holding (t m : ℕ) (tr : List Event) : Bool :=
  tr.foldl (fun b e => if e = .acquired t m then true else if e = .releasing t m then false else b) false

/-- `held_by_` is the holder, which does not clear it yet. -/
def Held (tr : List Event) (s : State) : Prop :=
  ∀ t m, holding t m tr = true → s.held_by_ m = some t ∧ ¬(s.pc t).removes m

theorem holding_append (t m : ℕ) (tr : List Event) (e : Event) : holding t m (tr ++ [e]) =
    if e = .acquired t m then true else if e = .releasing t m then false else holding t m tr := by
  rw [holding, holding, List.foldl_append]
  rfl

theorem holding_quiet (hacquired : .acquired t m ∉ evs) (hreleasing : .releasing t m ∉ evs) :
    holding t m (tr ++ evs) = holding t m tr := by
  rw [holding, holding, List.foldl_append]
  induction evs with
  | nil => rfl
  | cons e evs ih =>
    rw [List.mem_cons, not_or] at hacquired hreleasing
    rw [List.foldl_cons, if_neg (Ne.symm hacquired.1), if_neg (Ne.symm hreleasing.1)]
    exact ih hacquired.2 hreleasing.2

theorem Held.perform (h : Held tr s) (hg : Guards s) (ho : (s.pc t).op ≠ .stay) :
    Held (tr ++ (s.perform t (s.pc t).op).2) (s.perform t (s.pc t).op).1 := by
  intro u k hholding
  have hremoves := removes_next (i := s.pc t) (k := k) (s.busy (s.pc t).op) (s.popped (s.pc t).op)
  have hsets := setsMutex_of_op (i := s.pc t)
  have hholds := holds_of_op (i := s.pc t)
  have hclears := removes_of_op (i := s.pc t)
  have hat : ((s.perform t (s.pc t).op).1.pc u).removes k → _ := table_update (P := (·.removes k)) (perform_pc ho)
  rw [perform_events] at hholding
  rw [perform_held_by]
  generalize (s.pc t).op = o at *
  cases o with
  | setHeldBy m next =>
    dsimp only at hholding ⊢
    rw [holding_append] at hholding
    split at hholding
    · rename_i heq
      cases heq
      refine ⟨update_self _ _ _, fun hr => ?_⟩
      obtain ⟨-, hr⟩ | ⟨hne, -⟩ := hat hr
      · exact hremoves hr
      · exact hne rfl
    · obtain ⟨hheld, hnot⟩ := h u k (by simpa using hholding)
      have hk : k ≠ m := by
        rintro rfl
        rw [hg.fresh hsets] at hheld
        cases hheld
      refine ⟨(update_of_ne hk _ _).trans hheld, fun hr => ?_⟩
      obtain ⟨-, hr⟩ | ⟨-, hr⟩ := hat hr
      · exact hremoves hr
      · exact hnot hr
  | checkInvalidRelease m next =>
    dsimp only at hholding ⊢
    rw [holding_append, if_neg (by simp)] at hholding
    split at hholding
    · cases hholding
    · rename_i hother
      obtain ⟨hheld, hnot⟩ := h u k hholding
      refine ⟨hheld, fun hr => ?_⟩
      obtain ⟨rfl, hself⟩ | ⟨-, hold⟩ := hat hr
      · exact hother (by rw [show k = m from hremoves hself])
      · exact hnot hold
  | clearHeldBy m next =>
    dsimp only at hholding ⊢
    rw [List.append_nil] at hholding
    obtain ⟨hheld, hnot⟩ := h u k hholding
    have hk : k ≠ m := by
      rintro rfl
      rw [hg.holds hholds] at hheld
      cases hheld
      exact hnot hclears
    refine ⟨(update_of_ne hk _ _).trans hheld, fun hr => ?_⟩
    obtain ⟨-, hr⟩ | ⟨-, hr⟩ := hat hr
    · exact hremoves hr
    · exact hnot hr
  | removeFromHoldingList m next =>
    dsimp only at hholding ⊢
    rw [List.append_nil] at hholding
    obtain ⟨hheld, hnot⟩ := h u k hholding
    refine ⟨hheld, fun hr => ?_⟩
    obtain ⟨rfl, hself⟩ | ⟨-, hold⟩ := hat hr
    · exact hnot (hremoves hself)
    · exact hnot hold
  | _ =>
    rw [holding_quiet (by simp) (by simp)] at hholding
    obtain ⟨hheld, hnot⟩ := h u k hholding
    refine ⟨hheld, fun hr => ?_⟩
    obtain ⟨-, hr⟩ | ⟨-, hr⟩ := hat hr
    · exact hremoves hr
    · exact hnot hr

/-! ### Runs -/

/-- The invariants of a run. -/
structure MutexInv (tr : List Event) (s : State) : Prop where
  guards : Guards s
  queues : Queues s
  rescued : ∀ m, Rescued s m
  held : Held tr s

theorem Boot.mutexInv (h : Boot s) : MutexInv [] s := by
  refine ⟨h.guards, h.queues, fun m _ hwait => ?_, fun t m hh => by cases hh⟩
  obtain hne | ⟨u, hu⟩ := hwait
  · exact absurd (h.waiters_list_ _) hne
  · rw [h.pc] at hu
    exact hu.elim

theorem MutexInv.step (h : MutexInv tr s) {act : Act} (hs : Locks.step s act = .ok (s', evs)) : MutexInv (tr ++ evs) s' := by
  have hguards := h.guards.step hs
  have hqueues := h.queues.step hs
  obtain ⟨t, f, -, hidle, rfl, rfl⟩ | ⟨t, depth, -, hawake, hstops, ho, heq⟩ := step_cases hs
  · refine ⟨hguards, hqueues, fun m => (h.rescued m).call hidle f, fun u k hh => ?_⟩
    rw [List.append_nil] at hh
    obtain ⟨hheld, hnot⟩ := h.held u k hh
    have hremoves : ¬f.start.removes k := by cases f <;> simp [Call.start]
    exact ⟨hheld, fun hr => hnot (table_keep (P := (·.removes k)) rfl (fun hc => absurd hc hremoves) hr)⟩
  · obtain ⟨rfl, rfl⟩ := Prod.mk.inj heq
    exact ⟨hguards, hqueues, fun m => (h.rescued m).perform h.guards h.queues ho hawake hstops, h.held.perform h.guards ho⟩

theorem mutexInv_of_runs {ok : State → Act → Prop} (hb : Boot s₀) (hrun : Runs step ok s₀ tr s) : MutexInv tr s :=
  hrun.invariant (I := MutexInv) hb.mutexInv fun h _ hs => h.step hs

/-- Where the assertion of `acquire` fails. -/
theorem stops_heldBy (h : s.stops depth t o = some (.panic .heldBy)) : ∃ m next, o = .assertNotHeld m next ∧ s.held_by_ m ≠ none := by
  cases o with
  | assertNotHeld m next =>
    refine ⟨m, next, rfl, fun hnone => ?_⟩
    simp [State.stops, State.assert, hnone] at h
  | doChecksBeforeWaiting m next =>
    simp only [State.stops, State.doChecksBeforeWaiting] at h
    split at h
    · cases h
    · split at h <;> cases h
  | waitChecks m next =>
    simp only [State.stops] at h
    split at h
    · cases h
    · unfold State.assert at h
      split at h <;> cases h
  | lockWaitersList l next =>
    simp only [State.stops] at h
    split at h <;> cases h
  | wake p next =>
    simp only [State.stops] at h
    split at h <;> cases h
  | checkStillWaiting next =>
    simp only [State.stops, State.assert] at h
    split at h <;> cases h
  | checkInvalidRelease m next =>
    simp only [State.stops, State.assert] at h
    split at h <;> cases h
  | signalChecks m next =>
    simp only [State.stops, State.assert] at h
    split at h <;> cases h
  | _ => cases h

/-- A mutex has one holder at most, which is in `held_by_`; its assertion never fails, and no waiter of a
free mutex is forgotten. -/
theorem mutex_safe (hb : Boot s₀) (hrun : Runs step (fun _ _ => True) s₀ tr s) (m : ℕ) :
    (∀ t u, holding t m tr = true → holding u m tr = true → t = u) ∧
    (∀ t, holding t m tr = true → s.held_by_ m = some t) ∧
    (∀ t depth, step s (.run t depth) ≠ .error (.panic .heldBy)) ∧ ¬LostWakeup s m := by
  have h := mutexInv_of_runs hb hrun
  refine ⟨fun t u ht hu => ?_, fun t ht => (h.held t m ht).1, fun t depth hs => ?_, (h.rescued m).not_lost⟩
  · have heq := (h.held t m ht).1.symm.trans (h.held u m hu).1
    exact Option.some.inj heq
  · simp only [step] at hs
    split at hs
    · cases hs
    · split at hs
      · rename_i e hstops
        cases hs
        obtain ⟨k, next, hop, hne⟩ := stops_heldBy hstops
        have hsets := setsMutex_of_op (i := s.pc t)
        rw [hop] at hsets
        exact hne (h.guards.fresh hsets)
      · cases hs

/-- Thread 0 acquires the mutex, thread 1 falls asleep, and thread 0 releases the mutex. -/
def handover : List Act :=
  .call 0 (.acquire 0) :: List.replicate 5 (.run 0 2) ++ .call 1 (.acquire 0) :: List.replicate 9 (.run 1 2) ++
    .call 0 (.release 0) :: List.replicate 8 (.run 0 2)

theorem mutex_safe_handover : ∃ s, Runs step (fun _ _ => True) noCalls
    [.acquired 0 0, .releasing 0 0, .popped 0 (.mutex 0) (some 1), .woken 0 1] s ∧ ¬LostWakeup s 0 := by
  have hexec : execOk step (fun _ _ => True) noCalls handover =
      some (_, [.acquired 0 0, .releasing 0 0, .popped 0 (.mutex 0) (some 1), .woken 0 1]) := rfl
  have hrun := runs_of_execOk noCalls handover hexec
  exact ⟨_, hrun, (mutex_safe noCalls_boot hrun 0).2.2.2⟩

end KPanic.Locks

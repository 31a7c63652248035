import Mathlib.Data.List.Nodup
import KPanic.Kernel.WaiterQueues

/-!
# Conditions

`wait` locks the list before it releases the mutex, and pushes itself before it unlocks the list. So the
list of waiters, the newest first, is at every signal the list of the waits that released the mutex.
-/

namespace KPanic.Locks

open Function
open Machine

/-- The wait has released the mutex, and will push itself to the list. -/
@[simp]
def Pc.entering : Pc → ℕ → ℕ → Prop
  | .wakeWaiter (.release m (some w)) _, c, k => c = w.1 ∧ k = m
  | .sleepAndRelease (.wait c' m _) .pushFront, c, k => c = c' ∧ k = m
  | _, _, _ => False

variable {s s' s₀ : State} {t u v x p c m k : ℕ} {l l' : LockId} {i : Pc} {o : Op} {tr evs : List Event} {depth : ℕ}

/-! ### Tables -/

theorem entering_next (busy : Bool) (popped : Option ℕ) : (i.op.next busy popped).entering c k ↔ match i.op with
    | .clearMutex m wait _ => k = m ∧ ∃ re_acquire_mutex, wait = some (c, re_acquire_mutex)
    | .pushFront _ _ => False
    | _ => i.entering c k := by
  cases i with
  | acquire m p => cases p <;> cases busy <;> simp
  | sleepAndRelease w p =>
    cases w with
    | acquire m => cases p <;> simp
    | wait c m re_acquire_mutex => cases re_acquire_mutex <;> cases p <;> simp
  | release m wait p =>
    cases p with
    | clearMutex =>
      cases wait with
      | none => simp
      | some w =>
        obtain ⟨d, re_acquire_mutex⟩ := w
        simp [eq_comm, and_comm]
    | _ => simp
  | wakeWaiter w p =>
    cases w with
    | release m wait =>
      cases p with
      | unlockWaitersList p => cases wait <;> cases p <;> simp
      | wake p => cases wait <;> simp
      | _ => cases wait <;> simp
    | signal c m broadcast =>
      cases p with
      | unlockWaitersList p => cases broadcast <;> cases p <;> simp
      | wake p => cases broadcast <;> simp
      | _ => simp
  | _ => simp

theorem locksList_of_entering (h : i.entering c k) : i.locksList (.condition c k) := by
  cases i with
  | sleepAndRelease w p => cases w <;> cases p <;> simp at h ⊢; exact h
  | wakeWaiter w p =>
    cases w with
    | release m wait =>
      cases wait with
      | none => simp at h
      | some w =>
        obtain ⟨rfl, rfl⟩ := h
        exact .inr ⟨w, rfl, rfl⟩
    | signal c m broadcast => simp at h
  | _ => simp at h

/-- Who changes the list of a condition. -/
theorem condition_of_op : match i.op with
    | .pushFront l _ => ∀ c m, l = .condition c m ↔ i.entering c m
    | .popBack l _ => ∀ c m, l = .condition c m → ∃ broadcast, i = .wakeWaiter (.signal c m broadcast) .popBack
    | .clearMutex m wait _ => (∀ c k, ¬i.entering c k) ∧ ∀ w ∈ wait, i.locksList (.condition w.1 m)
    | _ => True := by
  cases i with
  | acquire m p => cases p <;> simp
  | sleepAndRelease w p =>
    cases w <;> cases p <;> simp [eq_comm]
  | release m wait p =>
    cases p <;> simp
    intro c
    exact ⟨fun hw => ⟨_, hw, rfl⟩, fun hw => ⟨_, hw, rfl⟩⟩
  | wakeWaiter w p =>
    cases w <;> cases p with
    | unlockWaitersList p => cases p <;> simp
    | _ => simp
  | _ => simp

/-! ### Who waits -/

/-- The threads whose wait has released the mutex, and which were not signalled, in this order. -/
def waitingOn (c m : ℕ) (tr : List Event) : List ℕ :=
  tr.foldl (fun ts e =>
    match e with
    | .waiting t c' m' => if c' = c ∧ m' = m then ts ++ [t] else ts
    | .popped _ l (some p) => if l = .condition c m then ts.erase p else ts
    | _ => ts) []

theorem waitingOn_append (c m : ℕ) (tr : List Event) (e : Event) : waitingOn c m (tr ++ [e]) =
    match e with
    | .waiting t c' m' => if c' = c ∧ m' = m then waitingOn c m tr ++ [t] else waitingOn c m tr
    | .popped _ l (some p) => if l = .condition c m then (waitingOn c m tr).erase p else waitingOn c m tr
    | _ => waitingOn c m tr := by
  rw [waitingOn, waitingOn, List.foldl_append]
  rfl

/-- The list of waiters, and the thread that is about to enter it. -/
def WaitList (tr : List Event) (s : State) : Prop :=
  ∀ c m, (∀ t, ¬(s.pc t).entering c m) ∧ waitingOn c m tr = (s.waiters_list_ (.condition c m)).reverse ∨
    ∃ t, (s.pc t).entering c m ∧ waitingOn c m tr = (s.waiters_list_ (.condition c m)).reverse ++ [t]

/-- At most one thread is about to enter the list. -/
theorem Guards.entering_once (h : Guards s) (ht : (s.pc t).entering c m) (hu : (s.pc u).locksList (.condition c m)) : t = u :=
  h.lists.once (locksList_of_entering ht) hu

theorem entering_perform (ho : (s.pc t).op ≠ .stay) : ((s.perform t (s.pc t).op).1.pc x).entering c k ↔
    if x = t then ((s.pc t).op.next (s.busy (s.pc t).op) (s.popped (s.pc t).op)).entering c k else (s.pc x).entering c k := by
  by_cases hxt : x = t
  · rw [if_pos hxt, hxt, perform_pc_self ho]
  · rw [if_neg hxt, perform_pc_of_ne hxt]

/-- A step that does not concern the condition. -/
theorem waitList_same (h : WaitList tr s) (hent : ∀ x, (s'.pc x).entering c m ↔ (s.pc x).entering c m)
    (hlist : s'.waiters_list_ (.condition c m) = s.waiters_list_ (.condition c m))
    (hwait : waitingOn c m (tr ++ evs) = waitingOn c m tr) :
    (∀ t, ¬(s'.pc t).entering c m) ∧ waitingOn c m (tr ++ evs) = (s'.waiters_list_ (.condition c m)).reverse ∨
      ∃ t, (s'.pc t).entering c m ∧ waitingOn c m (tr ++ evs) = (s'.waiters_list_ (.condition c m)).reverse ++ [t] := by
  rw [hlist, hwait]
  obtain ⟨hnone, heq⟩ | ⟨t, ht, heq⟩ := h c m
  · exact .inl ⟨fun t ht => hnone t ((hent t).mp ht), heq⟩
  · exact .inr ⟨t, (hent t).mpr ht, heq⟩

theorem WaitList.perform (h : WaitList tr s) (hg : Guards s) (ho : (s.pc t).op ≠ .stay) :
    WaitList (tr ++ (s.perform t (s.pc t).op).2) (s.perform t (s.pc t).op).1 := by
  intro c m
  have hent := fun x => entering_perform (s := s) (t := t) (x := x) (c := c) (k := m) ho
  have hnext := entering_next (i := s.pc t) (c := c) (k := m) (s.busy (s.pc t).op) (s.popped (s.pc t).op)
  have hplace := condition_of_op (i := s.pc t)
  have hlocks := locksList_of_op (i := s.pc t)
  have hlist := perform_waiters_list (s := s) (t := t) (o := (s.pc t).op)
  have hevs := perform_events (s := s) (t := t) (o := (s.pc t).op)
  -- The place of the thread does not change with respect to the condition.
  have hkeep : (((s.pc t).op.next (s.busy (s.pc t).op) (s.popped (s.pc t).op)).entering c m ↔ (s.pc t).entering c m) →
      ∀ x, ((s.perform t (s.pc t).op).1.pc x).entering c m ↔ (s.pc x).entering c m := by
    intro hsame x
    rw [hent x]
    split
    · rename_i hxt
      rw [hxt, hsame]
    · rfl
  cases hop : (s.pc t).op with
  | clearMutex k wait next =>
    rw [hop] at hent hlist hevs hnext hkeep hplace
    obtain ⟨hnot, hwaits⟩ := hplace
    dsimp only at hlist hevs hnext
    by_cases hin : ∃ re_acquire_mutex, m = k ∧ wait = some (c, re_acquire_mutex)
    · -- The wait releases the mutex, and the list stays locked.
      obtain ⟨re_acquire_mutex, rfl, rfl⟩ := hin
      have hlocked := hwaits _ rfl
      have hnone : ∀ x, ¬(s.pc x).entering c m := by
        intro x hx
        obtain rfl := hg.entering_once hx hlocked
        exact hnot c m hx
      obtain ⟨-, heq⟩ | ⟨x, hx, -⟩ := h c m
      · refine .inr ⟨t, ?_, ?_⟩
        · rw [hent, if_pos rfl]
          exact hnext.mpr ⟨rfl, re_acquire_mutex, rfl⟩
        · rw [hlist, hevs, ← heq]
          simp [waitingOn_append]
      · exact absurd hx (hnone x)
    · refine waitList_same h (hkeep (hnext.trans ⟨fun hn => ?_, fun hn => absurd hn (hnot c m)⟩)) (congrFun hlist _) ?_
      · obtain ⟨hmk, re_acquire_mutex, hw⟩ := hn
        exact absurd ⟨re_acquire_mutex, hmk, hw⟩ hin
      · rw [hevs]
        cases wait with
        | none => simp
        | some w =>
          have hne : ¬(w.1 = c ∧ k = m) := fun heq => hin ⟨w.2, heq.2.symm, by rw [← heq.1]⟩
          simp [waitingOn_append, hne]
  | pushFront l next =>
    rw [hop] at hent hlist hevs hnext hkeep hplace hlocks
    dsimp only at hlist hevs hnext
    by_cases hl : l = .condition c m
    · subst hl
      have henter := (hplace c m).mp rfl
      obtain ⟨hnone, -⟩ | ⟨x, hx, heq⟩ := h c m
      · exact absurd henter (hnone t)
      · obtain rfl := hg.entering_once hx hlocks
        refine .inl ⟨fun y hy => ?_, ?_⟩
        · have hy' := (hent y).mp hy
          split at hy'
          · exact hnext.mp hy'
          · rename_i hne
            exact hne (hg.entering_once hy' hlocks)
        · rw [hlist, hevs, List.append_nil, heq, update_self, List.reverse_cons]
    · have hnot : ¬(s.pc t).entering c m := fun hx => hl ((hplace c m).mpr hx)
      refine waitList_same h (hkeep (hnext.trans ⟨False.elim, hnot⟩)) ?_ ?_
      · rw [hlist]
        exact update_of_ne (Ne.symm hl) _ _
      · rw [hevs, List.append_nil]
  | popBack l next =>
    rw [hop] at hlist hevs hnext hkeep hplace hlocks
    dsimp only at hlist hevs hnext
    by_cases hl : l = .condition c m
    · subst hl
      obtain ⟨broadcast, hpc⟩ := hplace c m rfl
      have hnone : ∀ x, ¬(s.pc x).entering c m := by
        intro x hx
        obtain rfl := hg.entering_once hx hlocks
        rw [hpc] at hx
        exact hx
      obtain ⟨-, heq⟩ | ⟨x, hx, -⟩ := h c m
      · refine .inl ⟨fun x hx => hnone x ((hkeep hnext x).mp hx), ?_⟩
        rw [hlist, hevs, waitingOn_append, update_self]
        cases hlast : (s.waiters_list_ (.condition c m)).getLast? with
        | none =>
          dsimp only
          rw [heq, List.getLast?_eq_none_iff.mp hlast]
          rfl
        | some p =>
          obtain ⟨ys, hys⟩ := List.getLast?_eq_some_iff.mp hlast
          dsimp only
          rw [if_pos rfl, heq, hys, List.dropLast_concat, List.reverse_append]
          exact List.erase_cons_head p ys.reverse
      · exact absurd hx (hnone x)
    · refine waitList_same h (hkeep hnext) ?_ ?_
      · rw [hlist]
        exact update_of_ne (Ne.symm hl) _ _
      · rw [hevs, waitingOn_append]
        cases (s.waiters_list_ l).getLast? with
        | none => rfl
        | some p =>
          dsimp only
          rw [if_neg hl]
  | _ =>
    rw [hop] at hlist hevs hnext hkeep
    refine waitList_same h (hkeep hnext) (congrFun hlist _) ?_
    rw [hevs]
    first | rw [List.append_nil] | rw [waitingOn_append]

/-! ### Runs -/

structure ConditionInv (tr : List Event) (s : State) : Prop where
  guards : Guards s
  queues : Queues s
  list : WaitList tr s

theorem Boot.conditionInv (h : Boot s) : ConditionInv [] s := by
  refine ⟨h.guards, h.queues, fun c m => .inl ⟨fun t ht => ?_, ?_⟩⟩
  · rw [h.pc] at ht
    exact ht
  · rw [h.waiters_list_]
    rfl

theorem ConditionInv.step (h : ConditionInv tr s) {act : Act} (hs : Locks.step s act = .ok (s', evs)) :
    ConditionInv (tr ++ evs) s' := by
  have hguards := h.guards.step hs
  have hqueues := h.queues.step hs
  obtain ⟨t, f, -, hidle, rfl, rfl⟩ | ⟨t, depth, -, hawake, hstops, ho, heq⟩ := step_cases hs
  · refine ⟨hguards, hqueues, fun c m => waitList_same h.list (fun x => ?_) rfl (by rw [List.append_nil])⟩
    have hstart : ¬f.start.entering c m := by cases f <;> simp [Call.start]
    by_cases hxt : x = t
    · subst hxt
      rw [goto_pc_self, hidle]
      exact ⟨fun hx => absurd hx hstart, fun hx => hx.elim⟩
    · rw [goto_pc_of_ne hxt]
  · obtain ⟨rfl, rfl⟩ := Prod.mk.inj heq
    exact ⟨hguards, hqueues, h.list.perform h.guards ho⟩

theorem conditionInv_of_runs {ok : State → Act → Prop} (hb : Boot s₀) (hrun : Runs step ok s₀ tr s) : ConditionInv tr s :=
  hrun.invariant (I := ConditionInv) hb.conditionInv fun h _ hs => h.step hs

/-- A signal takes the thread that waits longest. -/
theorem ConditionInv.popped_head (h : ConditionInv tr s) (next : Option ℕ → Pc)
    (hop : (s.pc t).op = .popBack (.condition c m) next) :
    (s.waiters_list_ (.condition c m)).getLast? = (waitingOn c m tr).head? := by
  have hlocks := locksList_of_op (i := s.pc t)
  have hplace := condition_of_op (i := s.pc t)
  rw [hop] at hlocks hplace
  obtain ⟨broadcast, hpc⟩ := hplace c m rfl
  obtain ⟨-, heq⟩ | ⟨x, hx, -⟩ := h.list c m
  · rw [heq, List.head?_reverse]
  · obtain rfl := h.guards.entering_once hx hlocks
    rw [hpc] at hx
    exact hx.elim

theorem ConditionInv.nodup (h : ConditionInv tr s) : (waitingOn c m tr).Nodup := by
  have hlist := List.nodup_reverse.mpr (h.queues.nodup (.condition c m))
  obtain ⟨-, heq⟩ | ⟨x, hx, heq⟩ := h.list c m
  · rw [heq]
    exact hlist
  · rw [heq]
    refine List.nodup_append.mpr ⟨hlist, List.nodup_singleton x, fun y hy z hz hyz => ?_⟩
    rw [hyz, List.mem_singleton.mp hz, List.mem_reverse] at hy
    have hon := (h.queues.waits hy).1
    revert hx hon
    cases s.pc x with
    | sleepAndRelease w p => cases w <;> cases p <;> simp
    | _ => simp

/-! ### One signal or broadcast -/

/-- Whom the thread has woken up. -/
def wokenBy (u : ℕ) (tr : List Event) : List ℕ :=
  tr.filterMap fun e => match e with
    | .woken v p => if v = u then some p else none
    | _ => none

theorem wokenBy_append (u : ℕ) (tr evs : List Event) : wokenBy u (tr ++ evs) = wokenBy u tr ++ wokenBy u evs :=
  List.filterMap_append

/-- How far a call of `signal` is: whom it has woken up, and who still waits, of the threads in `W`. -/
inductive Phase (c m : ℕ) (b : Bool) (W : List ℕ) : Pc → List ℕ → List ℕ → Prop
  | checks : Phase c m b W (.signalChecks c m b) [] W
  | list {p ws ts} (hp : p = .lockWaitersList ∨ p = .popBack) (hw : ws ++ ts = W) (hone : b = false → ws = []) :
    Phase c m b W (.wakeWaiter (.signal c m b) p) ws ts
  | none {ws} (hw : ws = W) (hone : b = false → ws = []) :
    Phase c m b W (.wakeWaiter (.signal c m b) (.unlockWaitersList none)) ws []
  | found {p q ws ts} (hq : q = .unlockWaitersList (some p) ∨ q = .wake p) (hw : ws ++ p :: ts = W)
    (hone : b = false → ws = []) : Phase c m b W (.wakeWaiter (.signal c m b) q) ws ts
  | done {ws ts} (hw : ws = if b then W else W.take 1) : Phase c m b W .idle ws ts

/-- The other threads do not wait, and signal nobody, while the mutex is held. -/
theorem others_perform (tr : List Event) (hg : Guards s) (hheld : s.held_by_ m = some u) (htu : t ≠ u) :
    waitingOn c m (tr ++ (s.perform t (s.pc t).op).2) = waitingOn c m tr ∧
      (s.perform t (s.pc t).op).1.held_by_ m = some u := by
  have hsets := setsMutex_of_op (i := s.pc t)
  have hholds := holds_of_op (i := s.pc t)
  have hplace := condition_of_op (i := s.pc t)
  have hother : ¬(s.pc t).holds m := by
    intro hh
    rw [hg.holds hh] at hheld
    exact htu (Option.some.inj hheld)
  have hfree : ¬(s.pc t).setsMutex m := by
    intro hm
    rw [hg.fresh hm] at hheld
    cases hheld
  rw [perform_events, perform_held_by]
  cases hop : (s.pc t).op with
  | setHeldBy k next =>
    rw [hop] at hsets
    have hk : m ≠ k := by
      rintro rfl
      exact hfree hsets
    exact ⟨waitingOn_append c m tr _, (update_of_ne hk _ _).trans hheld⟩
  | clearHeldBy k next =>
    rw [hop] at hholds
    have hk : m ≠ k := by
      rintro rfl
      exact hother hholds
    exact ⟨by rw [List.append_nil], (update_of_ne hk _ _).trans hheld⟩
  | clearMutex k wait next =>
    rw [hop] at hsets
    have hk : k ≠ m := by
      rintro rfl
      exact hfree hsets
    refine ⟨?_, hheld⟩
    cases wait with
    | none => simp
    | some w => simp [waitingOn_append, hk]
  | popBack l next =>
    rw [hop] at hplace
    have hl : l ≠ .condition c m := by
      rintro rfl
      obtain ⟨broadcast, hpc⟩ := hplace c m rfl
      rw [hpc] at hother
      exact hother rfl
    refine ⟨?_, hheld⟩
    dsimp only
    rw [waitingOn_append]
    cases (s.waiters_list_ l).getLast? with
    | none => rfl
    | some p =>
      dsimp only
      rw [if_neg hl]
  | _ =>
    refine ⟨?_, hheld⟩
    first | rw [List.append_nil] | rw [waitingOn_append]

theorem wokenBy_others (htu : t ≠ u) : wokenBy u (s.perform t o).2 = [] := by
  rw [perform_events]
  cases o with
  | clearMutex k wait next => cases wait <;> simp [wokenBy]
  | _ => simp [wokenBy, htu]

/-- The thread is in its signal, and holds the mutex. -/
structure Signalling (c m u : ℕ) (b : Bool) (tr₀ : List Event) (tr : List Event) (s : State) : Prop where
  inv : ConditionInv (tr₀ ++ tr) s
  phase : Phase c m b (waitingOn c m tr₀) (s.pc u) (wokenBy u tr) (waitingOn c m (tr₀ ++ tr))
  held : s.pc u ≠ .idle → s.held_by_ m = some u

variable {b : Bool} {W ws ts : List ℕ} {tr₀ : List Event}

/-- One step of the signal itself. -/
theorem Phase.perform (h : Phase c m b W (s.pc u) ws ts) (hinv : ConditionInv tr s) (hts : waitingOn c m tr = ts)
    (ho : (s.pc u).op ≠ .stay) :
    Phase c m b W ((s.perform u (s.pc u).op).1.pc u) (ws ++ wokenBy u (s.perform u (s.pc u).op).2)
        (waitingOn c m (tr ++ (s.perform u (s.pc u).op).2)) ∧
      (s.perform u (s.pc u).op).1.held_by_ = s.held_by_ := by
  have hself := perform_pc_self (s := s) (t := u) ho
  have hevs := perform_events (s := s) (t := u) (o := (s.pc u).op)
  have hheld := perform_held_by (s := s) (t := u) (o := (s.pc u).op)
  have hhead := fun next => hinv.popped_head (t := u) (c := c) (m := m) next
  generalize s.pc u = i at *
  cases h with
  | checks =>
    simp only [Pc.op, Op.next] at hself hevs hheld ⊢
    rw [hself, hevs, hheld, List.append_nil, hts]
    exact ⟨.list (.inl rfl) rfl fun _ => rfl, rfl⟩
  | @list p _ _ hp hw hone =>
    obtain rfl | rfl := hp
    · simp only [Pc.op, wakeWaiter, Op.next] at hself hevs hheld ⊢
      rw [hself, hevs, hheld, List.append_nil, hts]
      exact ⟨.list (.inr rfl) (by simpa [wokenBy] using hw) (by simpa [wokenBy] using hone), rfl⟩
    · have hlast := hhead _ rfl
      simp only [Pc.op, wakeWaiter, Waker.lock, Op.next, State.popped] at hself hevs hheld ⊢
      rw [hself, hevs, hheld, hlast, waitingOn_append, hts]
      refine ⟨?_, rfl⟩
      cases ts with
      | nil => exact .none (by simpa [wokenBy] using hw) (by simpa [wokenBy] using hone)
      | cons q rest =>
        simp only [List.head?_cons, if_true, List.erase_cons_head]
        exact .found (.inl rfl) (by simpa [wokenBy] using hw) (by simpa [wokenBy] using hone)
  | none hw hone =>
    have hend : (Waker.signal c m b).resume false = .idle := by simp
    simp only [Pc.op, wakeWaiter, Op.next, hend] at hself hevs hheld ⊢
    rw [hself, hevs, hheld]
    refine ⟨.done ?_, rfl⟩
    cases b with
    | true => simpa [wokenBy] using hw
    | false => rw [← hw, hone rfl]; rfl
  | @found p q _ _ hq hw hone =>
    obtain rfl | rfl := hq
    · simp only [Pc.op, wakeWaiter, Op.next] at hself hevs hheld ⊢
      rw [hself, hevs, hheld, List.append_nil, hts]
      exact ⟨.found (.inr rfl) (by simpa [wokenBy] using hw) (by simpa [wokenBy] using hone), rfl⟩
    · have hwoken : wokenBy u [.woken u p] = [p] := by simp [wokenBy]
      simp only [Pc.op, wakeWaiter, Op.next] at hself hevs hheld ⊢
      rw [hself, hevs, hheld, waitingOn_append, hwoken, hts]
      refine ⟨?_, rfl⟩
      cases b with
      | true =>
        refine .list (.inl rfl) ?_ (by simp)
        rw [List.append_assoc]
        exact hw
      | false =>
        refine .done ?_
        rw [← hw, hone rfl]
        rfl
  | done hw => exact absurd rfl ho

theorem Signalling.step (h : Signalling c m u b tr₀ tr s) (hpc : s.pc u ≠ .idle) {act : Act}
    (hs : Locks.step s act = .ok (s', evs)) : Signalling c m u b tr₀ (tr ++ evs) s' := by
  have hinv := h.inv.step hs
  rw [List.append_assoc] at hinv
  have hheld := h.held hpc
  obtain ⟨t, f, -, hidle, rfl, rfl⟩ | ⟨t, depth, -, hawake, hstops, ho, heq⟩ := step_cases hs
  · have hut : u ≠ t := by
      rintro rfl
      exact hpc hidle
    refine ⟨hinv, ?_, fun _ => hheld⟩
    rw [goto_pc_of_ne hut, List.append_nil]
    exact h.phase
  · obtain rfl : s' = (s.perform t (s.pc t).op).1 := congrArg Prod.fst heq
    obtain rfl : evs = (s.perform t (s.pc t).op).2 := congrArg Prod.snd heq
    by_cases htu : t = u
    · subst htu
      obtain ⟨hphase, hsame⟩ := h.phase.perform h.inv rfl ho
      rw [List.append_assoc, ← wokenBy_append] at hphase
      exact ⟨hinv, hphase, fun _ => by rw [hsame]; exact hheld⟩
    · obtain ⟨hwait, hheld'⟩ := others_perform (c := c) (tr₀ ++ tr) h.inv.guards hheld htu
      refine ⟨hinv, ?_, fun _ => hheld'⟩
      rw [perform_pc_of_ne (Ne.symm htu), wokenBy_append, wokenBy_others htu, List.append_nil, ← List.append_assoc, hwait]
      exact h.phase

/-- A signal wakes up the thread that waits longest, and a broadcast all those that wait. -/
theorem signal_wakes (h : ConditionInv tr₀ s) (hpc : s.pc u = .signalChecks c m b) (hheld : s.held_by_ m = some u)
    (hrun : Runs step (fun v _ => v.pc u ≠ .idle) s tr s') (hend : s'.pc u = .idle) :
    wokenBy u tr = if b then waitingOn c m tr₀ else (waitingOn c m tr₀).take 1 := by
  have hsig : Signalling c m u b tr₀ tr s' := by
    refine hrun.invariant (I := Signalling c m u b tr₀) ⟨?_, ?_, fun _ => hheld⟩ fun h hok hs => h.step hok hs
    · rw [List.append_nil]
      exact h
    · rw [hpc, List.append_nil]
      exact .checks
  have hphase := hsig.phase
  rw [hend] at hphase
  cases hphase with
  | done hw => exact hw

/-! ### Every wait is signalled once at most -/

/-- How often a thread was taken from the list of the condition. -/
def signalled (t c m : ℕ) (tr : List Event) : ℕ :=
  tr.countP fun e => match e with
    | .popped _ l (some p) => l = .condition c m ∧ p = t
    | _ => false

def Balanced (tr : List Event) : Prop :=
  ∀ t c m, tr.count (.waiting t c m) = signalled t c m tr + (waitingOn c m tr).count t

/-- The events of a step change the number of waits, of signals and of waiting threads alike. -/
theorem Balanced.step (h : Balanced tr) (hinv : ConditionInv tr s) {act : Act} (hs : Locks.step s act = .ok (s', evs)) :
    Balanced (tr ++ evs) := by
  obtain ⟨t, f, -, -, -, rfl⟩ | ⟨t, depth, -, -, -, ho, heq⟩ := step_cases hs
  · rw [List.append_nil]
    exact h
  · obtain rfl : evs = (s.perform t (s.pc t).op).2 := congrArg Prod.snd heq
    intro x c m
    have hold := h x c m
    have hhead := fun next => hinv.popped_head (t := t) (c := c) (m := m) next
    rw [perform_events]
    cases hop : (s.pc t).op with
    | clearMutex k wait next =>
      cases wait with
      | none => simpa using hold
      | some w =>
        simp only [Option.map_some, Option.toList_some, waitingOn_append, signalled, List.count_append, List.countP_append,
          List.countP_singleton, List.count_singleton]
        rw [hold, signalled]
        by_cases hin : w.1 = c ∧ k = m
        · obtain ⟨rfl, rfl⟩ := hin
          by_cases hx : t = x
          · subst hx
            simp [List.count_append]
            omega
          · simp [List.count_append, hx]
        · have hne : Event.waiting t w.1 k ≠ .waiting x c m := by
            rintro heq'
            cases heq'
            exact hin ⟨rfl, rfl⟩
          simp [hin, hne]
    | popBack l next =>
      rw [hop] at hhead
      simp only [waitingOn_append, signalled, List.count_append, List.countP_append, List.countP_singleton]
      rw [signalled] at hold
      by_cases hl : l = .condition c m
      · subst hl
        rw [hhead next rfl]
        cases hwait : waitingOn c m tr with
        | nil =>
          rw [hwait] at hold
          simpa using hold
        | cons q rest =>
          rw [hwait, List.count_cons] at hold
          by_cases hq : q = x
          · subst hq
            simp at hold ⊢
            omega
          · simp [hq] at hold ⊢
            exact hold
      · cases (s.waiters_list_ l).getLast? with
        | none => simpa using hold
        | some q => simpa [hl] using hold
    | _ =>
      first
      | simpa using hold
      | simpa [waitingOn_append, signalled, List.count_append, List.countP_append] using hold

/-! ### Conditions lose no signal -/

/-- The step of the waker wakes `p` up, or `p` is about to fall asleep. -/
def WakesNext (s : State) (u p : ℕ) : Prop :=
  (∃ s', step s (.run u 0) = .ok (s', [.woken u p]) ∧ s'.state_ p = .Running) ∨ ∃ s', step s (.run p 0) = .ok (s', [])

theorem Queues.wakesNext (h : Queues s) {w : Waker} (hpc : s.pc u = .wakeWaiter w (.wake p)) : WakesNext s u p := by
  have hwakes : (s.pc u).wakes w.lock p := by
    rw [hpc]
    exact ⟨rfl, rfl⟩
  obtain ⟨⟨hon, hasleep⟩, -⟩ := h.popped hwakes
  cases hp : s.state_ p with
  | Sleeping =>
    have hu : s.state_ u = .Running := by
      cases hu : s.state_ u with
      | Running => rfl
      | Sleeping =>
        have hu' := h.asleep hu
        rw [hpc] at hu'
        cases hu'
    have hstops : s.stops 0 u (s.pc u).op = none := by
      rw [hpc]
      simp [State.stops, hp]
    have hrun := step_run hu hstops
    rw [hpc] at hrun
    refine .inl ⟨_, hrun, ?_⟩
    exact update_self _ _ _
  | Running =>
    have hrun := fun hstops : s.stops 0 p (s.pc p).op = none => step_run hp hstops
    refine .inr ?_
    rw [hp] at hasleep
    revert hon hasleep hrun
    cases s.pc p with
    | sleepAndRelease w' q =>
      cases q with
      | unlockWaitersList => exact fun _ _ hrun => ⟨_, hrun rfl⟩
      | sleep => exact fun _ _ hrun => ⟨_, hrun rfl⟩
      | pushFront => simp
      | asleep => simp
    | _ => simp

/-- Only `Scheduler::wake` ends a sleep. -/
theorem woken_of_running {act : Act} (hs : step s act = .ok (s', evs)) (hp : s.state_ p = .Sleeping)
    (hp' : s'.state_ p = .Running) : ∃ u, .woken u p ∈ evs := by
  obtain ⟨t, f, -, -, rfl, -⟩ | ⟨t, depth, -, -, -, -, heq⟩ := step_cases hs
  · rw [show s.state_ p = .Running from hp'] at hp
    cases hp
  · obtain rfl : s' = (s.perform t (s.pc t).op).1 := congrArg Prod.fst heq
    obtain rfl : evs = (s.perform t (s.pc t).op).2 := congrArg Prod.snd heq
    rw [perform_state] at hp'
    rw [perform_events]
    cases hop : (s.pc t).op with
    | sleep next =>
      rw [hop] at hp'
      dsimp only at hp'
      by_cases hpt : p = t
      · rw [hpt, update_self] at hp'
        cases hp'
      · rw [update_of_ne hpt, hp] at hp'
        cases hp'
    | wake q next =>
      rw [hop] at hp'
      dsimp only at hp'
      by_cases hpq : p = q
      · rw [hpq]
        exact ⟨t, List.mem_singleton.mpr rfl⟩
      · rw [update_of_ne hpq, hp] at hp'
        cases hp'
    | _ =>
      rw [hop] at hp'
      rw [show s.state_ p = .Running from hp'] at hp
      cases hp

/-- What a signal takes from the list. -/
theorem ConditionInv.popped_of_step (h : ConditionInv tr s) {act : Act} {r : Option ℕ} (hs : Locks.step s act = .ok (s', evs))
    (hmem : .popped u (.condition c m) r ∈ evs) : r = (waitingOn c m tr).head? := by
  obtain ⟨t, f, -, -, -, rfl⟩ | ⟨t, depth, -, -, -, -, heq⟩ := step_cases hs
  · cases hmem
  · obtain rfl : evs = (s.perform t (s.pc t).op).2 := congrArg Prod.snd heq
    rw [perform_events] at hmem
    cases hop : (s.pc t).op with
    | popBack l next =>
      rw [hop] at hmem
      obtain heq' := List.mem_singleton.mp hmem
      cases heq'
      exact h.popped_head _ hop
    | clearMutex k wait next =>
      rw [hop] at hmem
      cases wait <;> simp at hmem
    | _ =>
      rw [hop] at hmem
      simp at hmem

/-- A signal wakes up the thread whose wait released the mutex first, and a broadcast all those threads, in
this order, and no other thread; every wait is signalled once at most, and nobody else is woken up. -/
theorem signals_not_lost (hb : Boot s₀) (hrun : Runs step (fun _ _ => True) s₀ tr s) (c m : ℕ) :
    (∀ u b tr' s', s.pc u = .signalChecks c m b → s.held_by_ m = some u →
      Runs step (fun v _ => v.pc u ≠ .idle) s tr' s' → s'.pc u = .idle →
      wokenBy u tr' = if b then waitingOn c m tr else (waitingOn c m tr).take 1) ∧
    (∀ act s' evs u r, step s act = .ok (s', evs) → .popped u (.condition c m) r ∈ evs → r = (waitingOn c m tr).head?) ∧
    (∀ t, tr.count (.waiting t c m) = signalled t c m tr + (waitingOn c m tr).count t ∧ (waitingOn c m tr).count t ≤ 1) ∧
    (∀ act s' evs p, step s act = .ok (s', evs) → s.state_ p = .Sleeping → s'.state_ p = .Running → ∃ u, .woken u p ∈ evs) ∧
    ∀ u w p, s.pc u = .wakeWaiter w (.wake p) → WakesNext s u p := by
  have h := conditionInv_of_runs hb hrun
  have hbalanced : ConditionInv tr s ∧ Balanced tr := by
    refine hrun.invariant (I := fun tr s => ConditionInv tr s ∧ Balanced tr) ⟨hb.conditionInv, fun t c m => rfl⟩ ?_
    exact fun h _ hs => ⟨h.1.step hs, h.2.step h.1 hs⟩
  refine ⟨fun u b tr' s' hpc hheld hrun' hend => signal_wakes h hpc hheld hrun' hend,
    fun act s' evs u r hs hmem => h.popped_of_step hs hmem, fun t => ⟨hbalanced.2 t c m, ?_⟩,
    fun act s' evs p hs hp hp' => woken_of_running hs hp hp', fun u w p hpc => h.queues.wakesNext hpc⟩
  exact List.nodup_iff_count_le_one.mp h.nodup t

/-- Thread 0 waits, and thread 1 is about to broadcast. -/
def waitThenBroadcast : List Act :=
  .call 0 (.acquire 0) :: List.replicate 5 (.run 0 2) ++ .call 0 (.wait 0 0 true) :: List.replicate 12 (.run 0 2) ++
    .call 1 (.acquire 0) :: List.replicate 5 (.run 1 2) ++ [.call 1 (.signal 0 0 true)]

def waitThenBroadcastEvents : List Event :=
  [.acquired 0 0, .releasing 0 0, .waiting 0 0 0, .popped 0 (.mutex 0) none, .acquired 1 0]

theorem signals_not_lost_broadcast : ∃ s, Runs step (fun _ _ => True) noCalls waitThenBroadcastEvents s ∧
    ∀ tr' s', Runs step (fun v _ => v.pc 1 ≠ .idle) s tr' s' → s'.pc 1 = .idle → wokenBy 1 tr' = [0] := by
  have hexec : execOk step (fun _ _ => True) noCalls waitThenBroadcast = some (_, waitThenBroadcastEvents) := rfl
  have hrun := runs_of_execOk noCalls waitThenBroadcast hexec
  exact ⟨_, hrun, fun tr' s' hrun' hend => (signals_not_lost noCalls_boot hrun 0 0).1 1 true tr' s' rfl rfl hrun' hend⟩

end KPanic.Locks

import KPanic.Kernel.WaiterQueues
import KPanic.Lib.WaitGraph

/-!
# Deadlock detection

`checkForCircularDeadLock` follows the lists backwards, from the locks that a thread holds to the threads
that wait for them. A thread is checked before it pushes itself to the list, and the check says nothing
of the threads that are pushed in between.
-/

namespace KPanic.Locks

open Function
open Machine
open Relation
open WaitGraph

namespace Pc

/-- The mutex is on the thread's list already, and `held_by_` is not set yet. -/
def listed : Pc → ℕ → Prop
  | .acquire m .setHeldBy, k => k = m
  | _, _ => False

/-- The mutex is not on the thread's list any more, and `held_by_` is not cleared yet. -/
def unlisted : Pc → ℕ → Prop
  | .release m _ .clearHeldBy, k => k = m
  | _, _ => False

/-- The check has passed, and the thread will push itself to the list. -/
@[simp]
def checked : Pc → ℕ → Prop
  | .sleepAndRelease (.acquire m) .pushFront, k => k = m
  | _, _ => False

/-- The thread is about to check whether it may wait for the mutex. -/
@[simp]
def checks : Pc → ℕ → Prop
  | .acquire m .doChecksBeforeWaiting, k | .acquire m .doChecksAgain, k => k = m
  | _, _ => False

end Pc

variable {s s' s₀ : State} {t u x y z m k : ℕ} {l : LockId} {i : Pc} {o : Op} {tr evs : List Event} {depth : ℕ}

/-! ### Tables -/

theorem listed_next (busy : Bool) (popped : Option ℕ) : (i.op.next busy popped).listed k ↔ match i.op with
    | .pushFrontToHoldingList m _ => k = m
    | _ => False := by
  cases i with
  | acquire m p => cases p <;> cases busy <;> simp [Pc.listed]
  | sleepAndRelease w p =>
    cases w with
    | acquire m => cases p <;> simp [Pc.listed]
    | wait c m re_acquire_mutex => cases re_acquire_mutex <;> cases p <;> simp [Pc.listed]
  | release m wait p => cases p <;> simp [Pc.listed]
  | wakeWaiter w p =>
    cases w with
    | release m wait =>
      cases p with
      | unlockWaitersList p => cases wait <;> cases p <;> simp [Pc.listed]
      | wake p => cases wait <;> simp [Pc.listed]
      | _ => simp [Pc.listed]
    | signal c m broadcast =>
      cases p with
      | unlockWaitersList p => cases broadcast <;> cases p <;> simp [Pc.listed]
      | wake p => cases broadcast <;> simp [Pc.listed]
      | _ => simp [Pc.listed]
  | _ => simp [Pc.listed]

theorem unlisted_next (busy : Bool) (popped : Option ℕ) : (i.op.next busy popped).unlisted k ↔ match i.op with
    | .removeFromHoldingList m _ => k = m
    | _ => False := by
  cases i with
  | acquire m p => cases p <;> cases busy <;> simp [Pc.unlisted]
  | sleepAndRelease w p =>
    cases w with
    | acquire m => cases p <;> simp [Pc.unlisted]
    | wait c m re_acquire_mutex => cases re_acquire_mutex <;> cases p <;> simp [Pc.unlisted]
  | release m wait p => cases p <;> simp [Pc.unlisted]
  | wakeWaiter w p =>
    cases w with
    | release m wait =>
      cases p with
      | unlockWaitersList p => cases wait <;> cases p <;> simp [Pc.unlisted]
      | wake p => cases wait <;> simp [Pc.unlisted]
      | _ => simp [Pc.unlisted]
    | signal c m broadcast =>
      cases p with
      | unlockWaitersList p => cases broadcast <;> cases p <;> simp [Pc.unlisted]
      | wake p => cases broadcast <;> simp [Pc.unlisted]
      | _ => simp [Pc.unlisted]
  | _ => simp [Pc.unlisted]

theorem checked_next (busy : Bool) (popped : Option ℕ) (h : (i.op.next busy popped).checked k) : match i.op with
    | .doChecksBeforeWaiting m _ => k = m ∧ i.checks m
    | _ => False := by
  cases i with
  | acquire m p => cases p <;> cases busy <;> simp at h ⊢ <;> exact h
  | sleepAndRelease w p =>
    cases w with
    | acquire m => cases p <;> simp at h
    | wait c m re_acquire_mutex => cases re_acquire_mutex <;> cases p <;> simp at h
  | release m wait p => cases p <;> simp at h
  | wakeWaiter w p =>
    cases w with
    | release m wait =>
      cases p with
      | unlockWaitersList p => cases wait <;> cases p <;> simp at h
      | wake p => cases wait <;> simp at h
      | _ => simp at h
    | signal c m broadcast =>
      cases p with
      | unlockWaitersList p => cases broadcast <;> cases p <;> simp at h
      | wake p => cases broadcast <;> simp at h
      | _ => simp at h
  | _ => simp at h

theorem holding_of_op : match i.op with
    | .setHeldBy m _ => ∀ k, (i.listed k ↔ k = m) ∧ ¬i.unlisted k
    | .clearHeldBy m _ => ∀ k, (i.unlisted k ↔ k = m) ∧ ¬i.listed k
    | _ => ∀ k, ¬i.listed k ∧ ¬i.unlisted k := by
  cases i with
  | acquire m p => cases p <;> simp [Pc.listed, Pc.unlisted]
  | sleepAndRelease w p => cases p <;> simp [Pc.listed, Pc.unlisted]
  | release m wait p => cases p <;> simp [Pc.listed, Pc.unlisted]
  | wakeWaiter w p =>
    cases p with
    | unlockWaitersList p => cases p <;> simp [Pc.listed, Pc.unlisted]
    | _ => simp [Pc.listed, Pc.unlisted]
  | _ => simp [Pc.listed, Pc.unlisted]

theorem pushFront_of_op : match i.op with
    | .pushFront l _ => ∀ m, l = .mutex m ↔ i.checked m
    | _ => ∀ m, ¬i.checked m := by
  cases i with
  | acquire m p => cases p <;> simp
  | sleepAndRelease w p =>
    cases w <;> cases p <;> simp [eq_comm]
  | release m wait p => cases p <;> simp
  | wakeWaiter w p =>
    cases p with
    | unlockWaitersList p => cases p <;> simp
    | _ => simp
  | _ => simp

/-- A thread that waits is at none of these places. -/
theorem not_of_waitsOn (h : i.waitsOn = some l) : ¬i.listed m ∧ ¬i.unlisted m ∧ ¬i.checked m ∧ ¬i.checks m := by
  cases i with
  | sleepAndRelease w p => cases w <;> cases p <;> simp [Pc.listed, Pc.unlisted] at h ⊢
  | _ => simp at h

/-! ### The lists of held mutexes -/

theorem perform_holding : (s.perform t o).1.holding_lock_list_ = match o with
    | .pushFrontToHoldingList m _ => update s.holding_lock_list_ t (m :: s.holding_lock_list_ t)
    | .removeFromHoldingList m _ => update s.holding_lock_list_ t ((s.holding_lock_list_ t).erase m)
    | _ => s.holding_lock_list_ := by
  cases o with
  | testSetLock m busy free => cases hm : s.mutex_ m <;> simp [State.perform, State.goto, hm]
  | _ => rfl

/-- What is on the lists. -/
structure Holds (s : State) : Prop where
  nodup : ∀ t, (s.holding_lock_list_ t).Nodup
  mem : ∀ t m, m ∈ s.holding_lock_list_ t ↔ s.held_by_ m = some t ∧ ¬(s.pc t).unlisted m ∨ (s.pc t).listed m

theorem Boot.holds (h : Boot s) : Holds s where
  nodup t := by
    rw [h.holding_lock_list_]
    exact List.nodup_nil
  mem t m := by
    rw [h.holding_lock_list_, h.held_by_, h.pc]
    simp [Pc.listed]

theorem Holds.call (h : Holds s) (hidle : s.pc t = .idle) (f : Call) : Holds (s.goto t f.start) where
  nodup := h.nodup
  mem x k := by
    have hold := h.mem x k
    have hstart : ¬f.start.listed k ∧ ¬f.start.unlisted k := by cases f <;> simp [Call.start, Pc.listed, Pc.unlisted]
    by_cases hxt : x = t
    · subst hxt
      have hidle' : ¬Pc.idle.listed k ∧ ¬Pc.idle.unlisted k := by simp [Pc.listed, Pc.unlisted]
      rw [hidle] at hold
      rw [goto_pc_self]
      change k ∈ s.holding_lock_list_ x ↔ s.held_by_ k = some x ∧ _ ∨ _
      simpa [hstart, hidle'] using hold
    · rw [goto_pc_of_ne hxt]
      exact hold

theorem Holds.nodup_perform (h : Holds s) (hg : Guards s) (x : ℕ) :
    ((s.perform t (s.pc t).op).1.holding_lock_list_ x).Nodup := by
  have hsets := setsMutex_of_op (i := s.pc t)
  have hplace := holding_of_op (i := s.pc t)
  rw [perform_holding]
  cases hop : (s.pc t).op with
  | pushFrontToHoldingList m next =>
    rw [hop] at hsets hplace
    dsimp only
    by_cases hxt : x = t
    · subst hxt
      rw [update_self]
      refine List.nodup_cons.mpr ⟨fun hmem => ?_, h.nodup x⟩
      obtain ⟨hheld, -⟩ | hlisted := (h.mem x m).mp hmem
      · rw [hg.fresh hsets] at hheld
        cases hheld
      · exact (hplace m).1 hlisted
    · rw [update_of_ne hxt]
      exact h.nodup x
  | removeFromHoldingList m next =>
    dsimp only
    by_cases hxt : x = t
    · subst hxt
      rw [update_self]
      exact (h.nodup x).erase m
    · rw [update_of_ne hxt]
      exact h.nodup x
  | _ => exact h.nodup x

/-- The other threads hold what they held. -/
theorem Holds.mem_perform_of_ne (h : Holds s) (hg : Guards s) (hxt : x ≠ t) :
    k ∈ (s.perform t (s.pc t).op).1.holding_lock_list_ x ↔
      (s.perform t (s.pc t).op).1.held_by_ k = some x ∧ ¬((s.perform t (s.pc t).op).1.pc x).unlisted k ∨
        ((s.perform t (s.pc t).op).1.pc x).listed k := by
  have hold := h.mem x k
  have hsets := setsMutex_of_op (i := s.pc t)
  have hholds := holds_of_op (i := s.pc t)
  rw [perform_pc_of_ne hxt, perform_holding, perform_held_by]
  cases hop : (s.pc t).op with
  | setHeldBy m next =>
    rw [hop] at hsets
    dsimp only
    by_cases hk : k = m
    · subst hk
      rw [hg.fresh hsets] at hold
      rw [hold, update_self]
      simp [Ne.symm hxt]
    · rw [update_of_ne hk]
      exact hold
  | clearHeldBy m next =>
    rw [hop] at hholds
    dsimp only
    by_cases hk : k = m
    · subst hk
      rw [hg.holds hholds] at hold
      rw [hold, update_self]
      simp [Ne.symm hxt]
    · rw [update_of_ne hk]
      exact hold
  | pushFrontToHoldingList m next =>
    dsimp only
    rw [update_of_ne hxt]
    exact hold
  | removeFromHoldingList m next =>
    dsimp only
    rw [update_of_ne hxt]
    exact hold
  | _ => exact hold

theorem Holds.mem_perform_self (h : Holds s) (ho : (s.pc t).op ≠ .stay) :
    k ∈ (s.perform t (s.pc t).op).1.holding_lock_list_ t ↔
      (s.perform t (s.pc t).op).1.held_by_ k = some t ∧ ¬((s.perform t (s.pc t).op).1.pc t).unlisted k ∨
        ((s.perform t (s.pc t).op).1.pc t).listed k := by
  have hold := h.mem t k
  have hplace := holding_of_op (i := s.pc t)
  rw [perform_pc_self ho, listed_next, unlisted_next, perform_holding, perform_held_by]
  cases hop : (s.pc t).op with
  | setHeldBy m next =>
    rw [hop] at hplace
    obtain ⟨hlisted, hunlisted⟩ := hplace k
    dsimp only
    by_cases hk : k = m
    · subst hk
      simp [hold, hlisted]
    · rw [update_of_ne hk]
      simpa [hlisted, hunlisted, hk] using hold
  | clearHeldBy m next =>
    rw [hop] at hplace
    obtain ⟨hunlisted, hlisted⟩ := hplace k
    dsimp only
    by_cases hk : k = m
    · subst hk
      simp [hold, hlisted, hunlisted]
    · rw [update_of_ne hk]
      simpa [hlisted, hunlisted, hk] using hold
  | pushFrontToHoldingList m next =>
    rw [hop] at hplace
    obtain ⟨hlisted, hunlisted⟩ := hplace k
    dsimp only
    rw [update_self, List.mem_cons, hold]
    simp [hlisted, hunlisted, or_comm]
  | removeFromHoldingList m next =>
    rw [hop] at hplace
    obtain ⟨hlisted, hunlisted⟩ := hplace k
    dsimp only
    rw [update_self, (h.nodup t).mem_erase_iff, hold]
    simp [hlisted, hunlisted, and_comm]
  | _ =>
    rw [hop] at hplace
    obtain ⟨hlisted, hunlisted⟩ := hplace k
    simpa [hlisted, hunlisted] using hold

theorem Holds.step (h : Holds s) (hg : Guards s) {act : Act} (hs : Locks.step s act = .ok (s', evs)) : Holds s' := by
  obtain ⟨t, f, -, hidle, rfl, -⟩ | ⟨t, depth, -, -, -, ho, heq⟩ := step_cases hs
  · exact h.call hidle f
  · obtain rfl : s' = (s.perform t (s.pc t).op).1 := congrArg Prod.fst heq
    refine ⟨h.nodup_perform hg, fun x k => ?_⟩
    by_cases hxt : x = t
    · rw [hxt]
      exact h.mem_perform_self ho
    · exact h.mem_perform_of_ne hg hxt

/-! ### The wait-for graph -/

/-- `x` waits for a mutex that `y` holds. -/
def WaitsFor (s : State) (x y : ℕ) : Prop := ∃ m, x ∈ s.waiters_list_ (.mutex m) ∧ s.held_by_ m = some y

/-- The graph, if `t` waited for the mutex as well. -/
def WaitsWith (s : State) (t m x y : ℕ) : Prop := WaitsFor s x y ∨ x = t ∧ s.held_by_ m = some y

/-- The mutex is held by a thread that waits, directly or not, for `t`. -/
def Closes (s : State) (t m : ℕ) : Prop := ∃ u, s.held_by_ m = some u ∧ ReflTransGen (WaitsFor s) u t

theorem closes_iff (h : Acyclic (WaitsFor s)) : Closes s t m ↔ ¬Acyclic (WaitsWith s t m) := by
  cases hheld : s.held_by_ m with
  | none =>
    have hsame : ∀ {x y}, WaitsWith s t m x y → WaitsFor s x y := by
      rintro x y (hxy | ⟨-, hy⟩)
      · exact hxy
      · rw [hheld] at hy
        cases hy
    refine ⟨fun ⟨u, hu, _⟩ => ?_, fun hcycle => absurd (h.mono hsame) hcycle⟩
    rw [hheld] at hu
    cases hu
  | some u =>
    have hedge : WaitsWith s t m = addEdge (WaitsFor s) t u := by
      funext x y
      rw [WaitsWith, addEdge, hheld, Option.some_inj, eq_comm (a := u)]
    rw [hedge, acyclic_addEdge_iff, Closes, not_and, not_not]
    constructor
    · rintro ⟨v, hv, hpath⟩ -
      rw [hheld] at hv
      cases hv
      exact hpath
    · exact fun hpath => ⟨u, hheld, hpath h⟩

/-- The thread's list has what the thread holds. -/
def Settled (s : State) (x : ℕ) : Prop := ∀ m, m ∈ s.holding_lock_list_ x ↔ s.held_by_ m = some x

theorem Queues.settled (h : Queues s) (hh : Holds s) (hx : x ∈ s.waiters_list_ l) : Settled s x := by
  intro m
  obtain ⟨hlisted, hunlisted, -⟩ := not_of_waitsOn (m := m) (h.waits hx).1
  rw [hh.mem]
  simp [hlisted, hunlisted]

theorem settled_of_checks (hh : Holds s) (hx : (s.pc x).checks m) : Settled s x := by
  intro k
  have hplace : ¬(s.pc x).listed k ∧ ¬(s.pc x).unlisted k := by
    revert hx
    cases s.pc x with
    | acquire m p => cases p <;> simp [Pc.listed, Pc.unlisted]
    | _ => simp
  rw [hh.mem]
  simp [hplace]

/-! ### The check -/

theorem firstHit_true {α : Type} {f : α → Option Bool} {as : List α} (h : State.firstHit f as = some true) :
    ∃ a ∈ as, f a = some true := by
  induction as with
  | nil => cases h
  | cons a as ih =>
    rw [State.firstHit] at h
    cases ha : f a with
    | none =>
      rw [ha] at h
      cases h
    | some b =>
      rw [ha] at h
      cases b with
      | true => exact ⟨a, List.mem_cons_self, ha⟩
      | false =>
        obtain ⟨a', hmem, ha'⟩ := ih h
        exact ⟨a', List.mem_cons_of_mem _ hmem, ha'⟩

theorem firstHit_false {α : Type} {f : α → Option Bool} {as : List α} (h : State.firstHit f as = some false) :
    ∀ a ∈ as, f a = some false := by
  induction as with
  | nil => exact fun a ha => absurd ha List.not_mem_nil
  | cons a as ih =>
    rw [State.firstHit] at h
    cases ha : f a with
    | none =>
      rw [ha] at h
      cases h
    | some b =>
      rw [ha] at h
      cases b with
      | true => cases h
      | false =>
        intro a' hmem
        obtain rfl | hmem := List.mem_cons.mp hmem
        · exact ha
        · exact ih h a' hmem

theorem firstHit_ends {α : Type} {f : α → Option Bool} {as : List α} (h : ∀ a ∈ as, f a ≠ none) :
    State.firstHit f as ≠ none := by
  induction as with
  | nil => exact Option.some_ne_none _
  | cons a as ih =>
    rw [State.firstHit]
    cases ha : f a with
    | none => exact absurd ha (h a List.mem_cons_self)
    | some b =>
      cases b with
      | true => exact Option.some_ne_none _
      | false => exact ih fun a' hmem => h a' (List.mem_cons_of_mem _ hmem)

/-- A failed assertion is a chain to the thread. -/
theorem checkForCircularDeadLock_true (hq : Queues s) (hh : Holds s) (hx : Settled s x)
    (h : s.checkForCircularDeadLock m depth x = some true) : ∃ u, s.held_by_ m = some u ∧ ReflTransGen (WaitsFor s) u x := by
  induction depth generalizing x with
  | zero => cases h
  | succ depth ih =>
    rw [State.checkForCircularDeadLock] at h
    obtain ⟨lock, hlock, hhit⟩ := firstHit_true h
    have hheld := (hx lock).mp hlock
    split at hhit
    · rename_i heq
      rw [heq] at hheld
      exact ⟨x, hheld, .refl⟩
    · obtain ⟨w, hw, hhit⟩ := firstHit_true hhit
      obtain ⟨u, hu, hpath⟩ := ih (hq.settled hh hw) hhit
      exact ⟨u, hu, hpath.tail ⟨lock, hw, hheld⟩⟩

/-- A check that passes has followed all chains. -/
theorem checkForCircularDeadLock_false (hq : Queues s) (hh : Holds s) (hx : Settled s x)
    (h : s.checkForCircularDeadLock m depth x = some false) (hu : s.held_by_ m = some u) :
    ¬ReflTransGen (WaitsFor s) u x := by
  induction depth generalizing x with
  | zero => cases h
  | succ depth ih =>
    rw [State.checkForCircularDeadLock] at h
    have hpass := firstHit_false h
    intro hpath
    obtain rfl | ⟨w, hrest, lock, hw, hheld⟩ := hpath.cases_tail
    · have hhit := hpass m ((hx m).mpr hu)
      rw [if_pos rfl] at hhit
      cases hhit
    · have hhit := hpass lock ((hx lock).mpr hheld)
      split at hhit
      · cases hhit
      · exact ih (hq.settled hh hw) (firstHit_false hhit w hw) hrest

/-- The check fails exactly if waiting would close a cycle. -/
theorem checkForDeadLock_iff (hq : Queues s) (hh : Holds s) (hx : (s.pc t).checks m) {r : Bool}
    (h : s.checkForDeadLock depth t m = some r) : r = true ↔ Closes s t m := by
  have hsettled := settled_of_checks hh hx
  rw [State.checkForDeadLock] at h
  split at h
  · rename_i hself
    cases h
    exact ⟨fun _ => ⟨t, hself, .refl⟩, fun _ => rfl⟩
  · cases r with
    | true => exact ⟨fun _ => checkForCircularDeadLock_true hq hh hsettled h, fun _ => rfl⟩
    | false =>
      refine ⟨fun hf => absurd hf Bool.false_ne_true, fun ⟨u, hu, hpath⟩ => ?_⟩
      exact absurd hpath (checkForCircularDeadLock_false hq hh hsettled h hu)

/-- The check ends: the rank of the thread drops with every nested call. -/
theorem checkForCircularDeadLock_ends (hq : Queues s) (hh : Holds s) (hacyclic : Acyclic (WaitsFor s)) {S : Finset ℕ}
    (hS : ∀ x, s.pc x ≠ .idle → x ∈ S) {n : ℕ} (hx : Settled s x) (hmem : x ∈ S)
    (hn : rank (Function.swap (WaitsFor s)) S x < n) : s.checkForCircularDeadLock m n x ≠ none := by
  have hback : Acyclic (Function.swap (WaitsFor s)) := by
    intro y hy
    rw [transGen_swap] at hy
    exact hacyclic y hy
  induction n generalizing x with
  | zero => omega
  | succ n ih =>
    rw [State.checkForCircularDeadLock]
    refine firstHit_ends fun lock hlock => ?_
    have hheld := (hx lock).mp hlock
    split
    · exact Option.some_ne_none _
    · refine firstHit_ends fun w hw => ?_
      have hedge : Function.swap (WaitsFor s) x w := ⟨lock, hw, hheld⟩
      have hlt := rank_lt hback hmem hedge
      have hwS : w ∈ S := by
        refine hS w fun hidle => ?_
        have hon := (hq.waits hw).1
        rw [hidle] at hon
        cases hon
      exact ih (hq.settled hh hw) hwS (by omega)

/-! ### Runs -/

/-- When a thread pushes itself to the list of a mutex, no other thread has been checked and not pushed. -/
def ChecksFresh (s : State) : Act → Prop
  | .call _ _ => True
  | .run t _ => (∃ m, (s.pc t).checked m) → ∀ u ≠ t, ∀ k, ¬(s.pc u).checked k

structure DeadlockInv (s : State) : Prop where
  guards : Guards s
  queues : Queues s
  holds : Holds s
  acyclic : Acyclic (WaitsFor s)
  checked : ∀ t m, (s.pc t).checked m → ¬Closes s t m
  finite : ∃ S : Finset ℕ, ∀ t, s.pc t ≠ .idle → t ∈ S

theorem Boot.deadlockInv (h : Boot s) : DeadlockInv s := by
  refine ⟨h.guards, h.queues, h.holds, fun x hx => ?_, fun t m hm => ?_, ∅, fun t ht => absurd (h.pc t) ht⟩
  · obtain ⟨y, ⟨m, hmem, -⟩, -⟩ := TransGen.head'_iff.mp hx
    rw [h.waiters_list_] at hmem
    cases hmem
  · rw [h.pc] at hm
    exact hm.elim

theorem Closes.mono (hedges : ∀ {x y}, WaitsFor s' x y → WaitsFor s x y)
    (hheld : ∀ {u}, s'.held_by_ m = some u → s.held_by_ m = some u) (h : Closes s' t m) : Closes s t m := by
  obtain ⟨u, hu, hpath⟩ := h
  exact ⟨u, hheld hu, ReflTransGen.mono (fun _ _ => hedges) _ _ hpath⟩

/-- What a step does to the graph. -/
theorem edges_perform : (∃ m next, (s.pc t).op = .pushFront (.mutex m) next) ∨ (∃ m next, (s.pc t).op = .setHeldBy m next) ∨
    (∀ {x y}, WaitsFor (s.perform t (s.pc t).op).1 x y → WaitsFor s x y) ∧
      ∀ {k u}, (s.perform t (s.pc t).op).1.held_by_ k = some u → s.held_by_ k = some u := by
  have hheld := perform_held_by (s := s) (t := t) (o := (s.pc t).op)
  have hmem := fun x l => mem_waiters_perform (s := s) (t := t) (x := x) (l := l)
  by_cases hpush : ∃ m next, (s.pc t).op = .pushFront (.mutex m) next
  · exact .inl hpush
  · by_cases hset : ∃ m next, (s.pc t).op = .setHeldBy m next
    · exact .inr (.inl hset)
    · have hold : ∀ {k u}, (s.perform t (s.pc t).op).1.held_by_ k = some u → s.held_by_ k = some u := by
        intro k u hu
        rw [hheld] at hu
        cases hop : (s.pc t).op with
        | setHeldBy m next => exact absurd ⟨m, next, hop⟩ hset
        | clearHeldBy m next =>
          rw [hop] at hu
          dsimp only at hu
          by_cases hk : k = m
          · rw [hk, update_self] at hu
            cases hu
          · rw [update_of_ne hk] at hu
            exact hu
        | _ =>
          rw [hop] at hu
          exact hu
      refine .inr (.inr ⟨?_, hold⟩)
      rintro x y ⟨m, hx, hy⟩
      obtain hx | ⟨-, next, hop⟩ := hmem x _ hx
      · exact ⟨m, hx, hold hy⟩
      · exact absurd ⟨m, next, hop⟩ hpush

theorem DeadlockInv.pushFront (h : DeadlockInv s) (ho : (s.pc t).op ≠ .stay) {next : Pc}
    (hop : (s.pc t).op = .pushFront (.mutex m) next) (hfresh : ∀ u ≠ t, ∀ k, ¬(s.pc u).checked k) :
    Acyclic (WaitsFor (s.perform t (s.pc t).op).1) ∧
      ∀ u k, ((s.perform t (s.pc t).op).1.pc u).checked k → ¬Closes (s.perform t (s.pc t).op).1 u k := by
  have hplace := pushFront_of_op (i := s.pc t)
  rw [hop] at hplace
  have hchecked := (hplace m).mp rfl
  have hheld := perform_held_by (s := s) (t := t) (o := (s.pc t).op)
  constructor
  · have hwith : Acyclic (WaitsWith s t m) := by
      have hno := h.checked t m hchecked
      rw [closes_iff h.acyclic, not_not] at hno
      exact hno
    refine hwith.mono ?_
    rintro x y ⟨k, hx, hy⟩
    rw [hheld, hop] at hy
    obtain hx | ⟨rfl, next', hop'⟩ := mem_waiters_perform hx
    · exact .inl ⟨k, hx, hy⟩
    · rw [hop] at hop'
      cases hop'
      exact .inr ⟨rfl, hy⟩
  · intro u k hu
    obtain ⟨rfl, hat⟩ | ⟨hne, hat⟩ := table_update (P := (·.checked k)) (perform_pc ho) hu
    · have hnext := checked_next _ _ hat
      rw [hop] at hnext
      exact hnext.elim
    · exact absurd hat (hfresh u hne k)

theorem DeadlockInv.setHeldBy (h : DeadlockInv s) (ho : (s.pc t).op ≠ .stay) {next : Pc}
    (hop : (s.pc t).op = .setHeldBy m next) :
    Acyclic (WaitsFor (s.perform t (s.pc t).op).1) ∧
      ∀ u k, ((s.perform t (s.pc t).op).1.pc u).checked k → ¬Closes (s.perform t (s.pc t).op).1 u k := by
  have hplace := holding_of_op (i := s.pc t)
  have hheld := perform_held_by (s := s) (t := t) (o := (s.pc t).op)
  rw [hop] at hplace
  have hwaiters : ∀ {x k}, x ∈ (s.perform t (s.pc t).op).1.waiters_list_ (.mutex k) → x ∈ s.waiters_list_ (.mutex k) := by
    intro x k hx
    obtain hx | ⟨-, next', hop'⟩ := mem_waiters_perform hx
    · exact hx
    · rw [hop] at hop'
      cases hop'
  -- The new holder waits for nobody.
  have hsink : ∀ y, ¬WaitsFor (s.perform t (s.pc t).op).1 t y := by
    rintro y ⟨k, hmem, -⟩
    obtain ⟨hlisted, -⟩ := not_of_waitsOn (m := m) (h.queues.waits (hwaiters hmem)).1
    exact hlisted ((hplace m).1.mpr rfl)
  have hsub : ∀ x y, WaitsFor (s.perform t (s.pc t).op).1 x y → WaitsFor s x y ∨ y = t := by
    rintro x y ⟨k, hx, hy⟩
    rw [hheld, hop] at hy
    dsimp only at hy
    by_cases hk : k = m
    · rw [hk, update_self] at hy
      exact .inr (Option.some.inj hy).symm
    · rw [update_of_ne hk] at hy
      exact .inl ⟨k, hwaiters hx, hy⟩
  refine ⟨h.acyclic.sink hsub hsink, fun u k hu => ?_⟩
  obtain ⟨rfl, hat⟩ | ⟨hne, hat⟩ := table_update (P := (·.checked k)) (perform_pc ho) hu
  · have hnext := checked_next _ _ hat
    rw [hop] at hnext
    exact hnext.elim
  · rintro ⟨z, hz, hpath⟩
    have hold := reflTransGen_of_sink hsub hsink hpath hne
    rw [hheld, hop] at hz
    dsimp only at hz
    by_cases hk : k = m
    · rw [hk, update_self] at hz
      obtain rfl := Option.some.inj hz
      obtain rfl | ⟨y, hy, -⟩ := hpath.cases_head
      · exact hne rfl
      · exact hsink y hy
    · rw [update_of_ne hk] at hz
      exact h.checked u k hat ⟨z, hz, hold⟩

theorem DeadlockInv.step (h : DeadlockInv s) {act : Act} (hfresh : ChecksFresh s act)
    (hs : Locks.step s act = .ok (s', evs)) : DeadlockInv s' := by
  have hguards := h.guards.step hs
  have hqueues := h.queues.step hs
  have hholds := h.holds.step h.guards hs
  obtain ⟨S, hS⟩ := h.finite
  obtain ⟨t, f, -, -, rfl, -⟩ | ⟨t, depth, rfl, -, hstops, ho, heq⟩ := step_cases hs
  · refine ⟨hguards, hqueues, hholds, h.acyclic, fun u m hu => ?_, insert t S, fun x hx => ?_⟩
    · have hstart : ¬f.start.checked m := by cases f <;> simp [Call.start]
      exact h.checked u m (table_keep (P := (·.checked m)) rfl (fun hc => absurd hc hstart) hu)
    · by_cases hxt : x = t
      · rw [hxt]
        exact Finset.mem_insert_self t S
      · rw [goto_pc_of_ne hxt] at hx
        exact Finset.mem_insert_of_mem (hS x hx)
  · obtain rfl : s' = (s.perform t (s.pc t).op).1 := congrArg Prod.fst heq
    have hgraph : Acyclic (WaitsFor (s.perform t (s.pc t).op).1) ∧
        ∀ u k, ((s.perform t (s.pc t).op).1.pc u).checked k → ¬Closes (s.perform t (s.pc t).op).1 u k := by
      obtain ⟨m, next, hop⟩ | ⟨m, next, hop⟩ | ⟨hedges, hheld⟩ := edges_perform (s := s) (t := t)
      · have hplace := pushFront_of_op (i := s.pc t)
        rw [hop] at hplace
        exact h.pushFront ho hop (hfresh ⟨m, (hplace m).mp rfl⟩)
      · exact h.setHeldBy ho hop
      · refine ⟨h.acyclic.mono hedges, fun u k hu hcloses => ?_⟩
        replace hcloses := hcloses.mono hedges hheld
        obtain ⟨rfl, hat⟩ | ⟨-, hat⟩ := table_update (P := (·.checked k)) (perform_pc ho) hu
        · have hnext := checked_next _ _ hat
          cases hop : (s.pc u).op with
          | doChecksBeforeWaiting m next =>
            rw [hop] at hnext hstops
            obtain ⟨rfl, hchecks⟩ := hnext
            have hpass : s.checkForDeadLock depth u k = some false := by
              simp only [State.stops, State.doChecksBeforeWaiting] at hstops
              split at hstops
              · cases hstops
              · split at hstops
                · cases hstops
                · cases hstops
                · assumption
            exact Bool.false_ne_true ((checkForDeadLock_iff h.queues h.holds hchecks hpass).mpr hcloses)
          | _ =>
            rw [hop] at hnext
            exact hnext.elim
        · exact h.checked u k hat hcloses
    refine ⟨hguards, hqueues, hholds, hgraph.1, hgraph.2, insert t S, fun x hx => ?_⟩
    by_cases hxt : x = t
    · rw [hxt]
      exact Finset.mem_insert_self t S
    · rw [perform_pc_of_ne hxt] at hx
      exact Finset.mem_insert_of_mem (hS x hx)

theorem DeadlockInv.check_ends (h : DeadlockInv s) (ht : (s.pc t).checks m) : ∃ depth r, s.checkForDeadLock depth t m = some r := by
  obtain ⟨S, hS⟩ := h.finite
  have hmem : t ∈ S := by
    refine hS t fun hidle => ?_
    rw [hidle] at ht
    exact ht
  have hends := checkForCircularDeadLock_ends (m := m) h.queues h.holds h.acyclic hS (settled_of_checks h.holds ht) hmem
    (Nat.lt_succ_self _)
  refine ⟨rank (Function.swap (WaitsFor s)) S t + 1, ?_⟩
  rw [State.checkForDeadLock]
  split
  · exact ⟨true, rfl⟩
  · exact Option.ne_none_iff_exists'.mp hends

/-- The check ends, and fails exactly if waiting would close a cycle; no cycle of waiting threads is
reached. -/
theorem deadlocks_found (hb : Boot s₀) (hrun : Runs step ChecksFresh s₀ tr s) :
    (∀ t m, (s.pc t).checks m → (∃ depth r, s.checkForDeadLock depth t m = some r) ∧
      ∀ depth r, s.checkForDeadLock depth t m = some r → (r = true ↔ ¬Acyclic (WaitsWith s t m))) ∧
    Acyclic (WaitsFor s) := by
  have h : DeadlockInv s := hrun.invariant (I := fun _ => DeadlockInv) hb.deadlockInv fun h hok hs => h.step hok hs
  refine ⟨fun t m ht => ⟨h.check_ends ht, fun depth r hr => ?_⟩, h.acyclic⟩
  rw [← closes_iff h.acyclic]
  exact checkForDeadLock_iff h.queues h.holds ht hr

def Pc.pushes : Pc → Bool
  | .sleepAndRelease _ .pushFront => true
  | _ => false

/-- No thread is pushed to a list. -/
def NoPush (s : State) : Act → Prop
  | .call _ _ => True
  | .run t _ => (s.pc t).pushes = false

instance (s : State) : (act : Act) → Decidable (NoPush s act)
  | .call _ _ => isTrue trivial
  | .run t _ => inferInstanceAs (Decidable ((s.pc t).pushes = false))

theorem checksFresh_of_noPush (s : State) (act : Act) (h : NoPush s act) : ChecksFresh s act := by
  cases act with
  | call t f => trivial
  | run t depth =>
    rintro ⟨m, hm⟩
    change (s.pc t).pushes = false at h
    revert h hm
    cases s.pc t with
    | sleepAndRelease w p => cases w <;> cases p <;> simp [Pc.pushes]
    | _ => simp

/-- A thread that has the mutex is about to acquire it once more. -/
def twice : List Act := .call 0 (.acquire 0) :: List.replicate 5 (.run 0 2) ++ [.call 0 (.acquire 0)]

theorem deadlocks_found_twice : ∃ s, Runs step ChecksFresh noCalls [.acquired 0 0] s ∧
    s.checkForDeadLock 0 0 0 = some true ∧ ¬Acyclic (WaitsWith s 0 0) := by
  have hexec : execOk step NoPush noCalls twice = some (_, [.acquired 0 0]) := rfl
  have hrun := (runs_of_execOk noCalls twice hexec).mono checksFresh_of_noPush
  exact ⟨_, hrun, rfl, (((deadlocks_found noCalls_boot hrun).1 0 0 rfl).2 0 true rfl).mp rfl⟩

/-- Two threads have a mutex each, and acquire the other one: both are checked before one is pushed. -/
def crossing : List Act :=
  .call 0 (.acquire 0) :: List.replicate 5 (.run 0 2) ++ .call 1 (.acquire 1) :: List.replicate 5 (.run 1 2) ++
    .call 0 (.acquire 1) :: List.replicate 6 (.run 0 2) ++ .call 1 (.acquire 0) :: List.replicate 9 (.run 1 2) ++
    List.replicate 3 (.run 0 2)

theorem crossing_deadlocks : ∃ s, Runs step (fun _ _ => True) noCalls [.acquired 0 0, .acquired 1 1] s ∧
    s.state_ 0 = .Sleeping ∧ s.state_ 1 = .Sleeping ∧ WaitsFor s 0 1 ∧ WaitsFor s 1 0 ∧ ¬Acyclic (WaitsFor s) := by
  have hexec : execOk step (fun _ _ => True) noCalls crossing = some (_, [.acquired 0 0, .acquired 1 1]) := rfl
  have hrun := runs_of_execOk noCalls crossing hexec
  refine ⟨_, hrun, rfl, rfl, ?_⟩
  have hcycle : ∀ {s}, WaitsFor s 0 1 → WaitsFor s 1 0 → WaitsFor s 0 1 ∧ WaitsFor s 1 0 ∧ ¬Acyclic (WaitsFor s) :=
    fun hfirst hsecond => ⟨hfirst, hsecond, fun hacyclic => hacyclic 0 (.tail (.single hfirst) hsecond)⟩
  exact hcycle ⟨1, List.mem_singleton.mpr rfl, rfl⟩ ⟨0, List.mem_singleton.mpr rfl, rfl⟩

end KPanic.Locks

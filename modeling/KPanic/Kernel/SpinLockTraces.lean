import KPanic.Kernel.SpinLockRuns

/-!
# Spin locks as atomic locks

Callers see a lock that is taken and given back in one step each. The check before waiting looks at threads that wait in between.
-/

namespace KPanic.SpinLocks

open Function
open Machine
open Relation
open WaitGraph
open Locks (firstHit_true firstHit_false firstHit_ends)

/-- The thread gives the lock back, and its list does not have it any more. -/
@[simp]
def Pc.leaves : Pc → ℕ → Prop
  | .clearHeldBy l, k | .clearLock l, k => k = l
  | _, _ => False

variable {s s' s₀ : State} {t u x k l depth : ℕ} {p q : Pc} {tr evs : List Event} {owner : ℕ → Option ℕ}

/-- `acquire` has returned, and `release` has not. -/
def Entered (s : State) (t l : ℕ) : Prop := l ∈ s.holding_lock_list_ t ∨ (s.pc t).leaves l

structure SpinInv (s : State) : Prop where
  locks : LockInv s
  lists : ListInv s
  holding : HoldingInv s
  finite : ∃ S : Finset ℕ, ∀ t, s.pc t ≠ .idle → t ∈ S

theorem Boot.spinInv (h : Boot s) : SpinInv s where
  locks := by
    have hnot : ∀ t l, ¬Owns s t l := by simp [Owns, h.held_by_, h.pc]
    refine ⟨⟨fun hx => absurd hx (hnot _ _), fun hx => absurd hx (hnot _ _)⟩, fun l hl => ?_, fun t l hx => ?_, fun t l hx => ?_⟩
    · rw [h.lock_] at hl
      cases hl
    · exact h.held_by_ l
    · rw [h.pc] at hx
      cases hx
  lists := by
    have hnot : ∀ t l, ¬(s.pc t).locksList l := by simp [h.pc]
    refine ⟨⟨fun hx => absurd hx (hnot _ _), fun hx => absurd hx (hnot _ _)⟩, fun x l => ?_, fun l => ?_⟩
    · simp [h.waiters_list_, h.pc]
    · simp [h.waiters_list_]
  holding := ⟨fun x l => by simp [h.holding_lock_list_, h.held_by_], fun x => by simp [h.holding_lock_list_],
    fun x => by simp [h.lock_waiting_on_, h.pc]⟩
  finite := ⟨∅, fun t ht => absurd (h.pc t) ht⟩

theorem Does.place (hdoes : Does s s' evs) : ∃ t q, s'.pc = update s.pc t q := by
  cases hdoes <;> exact ⟨_, _, rfl⟩

theorem SpinInv.does (h : SpinInv s) (hdoes : Does s s' evs) : SpinInv s' where
  locks := h.locks.does hdoes
  lists := h.lists.does hdoes
  holding := h.holding.does h.locks hdoes
  finite := by
    obtain ⟨S, hS⟩ := h.finite
    obtain ⟨t, q, hpc⟩ := hdoes.place
    refine ⟨insert t S, fun x hx => ?_⟩
    by_cases hxt : x = t
    · exact Finset.mem_insert.mpr (.inl hxt)
    · rw [place_other hpc hxt] at hx
      exact Finset.mem_insert_of_mem (hS x hx)

theorem spinInv (hboot : Boot s₀) (hrun : Runs step (fun _ _ => True) s₀ tr s) : SpinInv s :=
  hrun.invariant (I := fun _ s => SpinInv s) hboot.spinInv fun hinv _ hs => hinv.does (step_does hs)

/-! ### Atomic locks -/

/-- Locks that are taken and given back in one step each: the owners afterwards, if the event may happen. -/
def serve (owner : ℕ → Option ℕ) : Event → Option (ℕ → Option ℕ)
  | .acquired t l => if owner l = none then some (update owner l (some t)) else none
  | .refused _ _ => some owner
  | .released t l => if owner l = some t then some (update owner l none) else none

/-- The owners of the atomic locks are the threads between `acquire` and `release`. -/
def Owners (s : State) (owner : ℕ → Option ℕ) : Prop := ∀ t l, owner l = some t ↔ Entered s t l

theorem SpinInv.owns (h : SpinInv s) (he : Entered s t l) : Owns s t l := by
  obtain hmem | hleaves := he
  · exact .inl ((h.holding.mem t l).mp hmem).1
  · cases hp : s.pc t with
    | clearHeldBy m =>
      rw [hp] at hleaves
      obtain rfl : l = m := hleaves
      exact .inl (h.locks.holds t l (by rw [hp]; rfl))
    | clearLock m =>
      rw [hp] at hleaves
      refine .inr ?_
      rw [hp]
      exact hleaves
    | _ =>
      rw [hp] at hleaves
      cases hleaves

theorem Goes.leaves (h : Goes s t p q evs) (k : ℕ) : q.leaves k ↔ p.leaves k := by
  cases h with
  | call f => cases f <;> simp [Call.start]
  | _ => simp

theorem Sets.leaves (h : Sets l p q) (k : ℕ) : q.leaves k ↔ p.leaves k := by
  cases h <;> simp

theorem LocksList.leaves (h : LocksList l p q) (k : ℕ) : q.leaves k ↔ p.leaves k := by
  cases h <;> simp

theorem UnlocksList.leaves (h : UnlocksList l p q) (k : ℕ) : q.leaves k ↔ p.leaves k := by
  cases h <;> simp

theorem Goes.serve (h : Goes s t p q evs) (owner : ℕ → Option ℕ) : evs.foldlM serve owner = some owner := by
  cases h <;> rfl

theorem Owners.keep (h : Owners s owner) (hlist : s'.holding_lock_list_ = s.holding_lock_list_) (hpc : s'.pc = update s.pc t q)
    (hleaves : ∀ k, q.leaves k ↔ (s.pc t).leaves k) : Owners s' owner := by
  intro x k
  rw [h x k, Entered, Entered, hlist, place_iff (P := (·.leaves k)) hpc (hleaves k) x]

theorem Owners.acquired (h : Owners s owner) (hinv : SpinInv s) (hp : s.pc t = .pushFrontToHoldingList l)
    (hlist : s'.holding_lock_list_ = update s.holding_lock_list_ t (l :: s.holding_lock_list_ t)) (hpc : s'.pc = update s.pc t .idle) :
    owner l = none ∧ Owners s' (update owner l (some t)) := by
  have hholds : s.held_by_ l = some t := hinv.locks.holds t l (by rw [hp]; rfl)
  have hnot : ∀ x, ¬Entered s x l := by
    intro x hx
    obtain rfl : x = t := hinv.locks.owners.once (hinv.owns hx) (.inl hholds)
    obtain hmem | hleaves := hx
    · exact ((hinv.holding.mem x l).mp hmem).2 (by rw [hp]; rfl)
    · rw [hp] at hleaves
      cases hleaves
  have hnone : owner l = none := by
    cases ho : owner l with
    | none => rfl
    | some x => exact absurd ((h x l).mp ho) (hnot x)
  refine ⟨hnone, fun x k => ?_⟩
  have hleaves : (s'.pc x).leaves k ↔ (s.pc x).leaves k := place_iff (P := (·.leaves k)) hpc (by simp [hp]) x
  rw [Entered, hleaves, hlist]
  by_cases hkl : k = l
  · subst hkl
    rw [update_self]
    by_cases hxt : x = t
    · simp [hxt]
    · rw [update_of_ne hxt]
      exact iff_of_false (fun heq => hxt (Option.some.inj heq).symm) (hnot x)
  · rw [update_of_ne hkl, h x k, Entered]
    by_cases hxt : x = t
    · subst hxt
      rw [update_self, List.mem_cons]
      simp [hkl]
    · rw [update_of_ne hxt]

/-- The lock leaves the list, and the thread is about to give it back. -/
theorem Owners.unlist (h : Owners s owner) (hinv : SpinInv s) (hp : s.pc t = .removeFromHoldingList l)
    (hlist : s'.holding_lock_list_ = update s.holding_lock_list_ t ((s.holding_lock_list_ t).erase l))
    (hpc : s'.pc = update s.pc t (.clearHeldBy l)) : Owners s' owner := by
  have hmem : l ∈ s.holding_lock_list_ t := (hinv.holding.mem t l).mpr ⟨hinv.locks.holds t l (by rw [hp]; rfl), by simp [hp]⟩
  intro x k
  rw [h x k, Entered, Entered, hlist]
  by_cases hxt : x = t
  · subst hxt
    rw [update_self, (hinv.holding.nodup x).mem_erase_iff, place_self hpc, hp]
    by_cases hkl : k = l
    · simp [hkl, hmem]
    · simp [hkl]
  · rw [update_of_ne hxt, place_other hpc hxt]

theorem Owners.released (h : Owners s owner) (hinv : SpinInv s) (hp : s.pc t = .clearLock l)
    (hlist : s'.holding_lock_list_ = s.holding_lock_list_) (hpc : s'.pc = update s.pc t .idle) :
    owner l = some t ∧ Owners s' (update owner l none) := by
  have hentered : Entered s t l := .inr (by rw [hp]; rfl)
  have hsets : (s.pc t).sets l := by
    rw [hp]
    rfl
  refine ⟨(h t l).mpr hentered, fun x k => ?_⟩
  rw [Entered, hlist]
  by_cases hkl : k = l
  · subst hkl
    rw [update_self]
    refine iff_of_false (Option.some_ne_none x).symm fun hx => ?_
    obtain hmem | hleaves := hx
    · exact absurd (((hinv.holding.mem x k).mp hmem).1.symm.trans (hinv.locks.fresh t k hsets)) (Option.some_ne_none x)
    · obtain ⟨hxt, hold⟩ := place_gone (P := (·.leaves k)) hpc id hleaves
      exact hxt (hinv.locks.owners.once (hinv.owns (.inr hold)) (.inr hsets))
  · rw [update_of_ne hkl, h x k, Entered]
    exact or_congr_right (place_iff (P := (·.leaves k)) hpc (by simp [hp, hkl]) x).symm

/-- A step of a thread is a step of the atomic locks, or none. -/
theorem Owners.does (h : Owners s owner) (hinv : SpinInv s) (hdoes : Does s s' evs) :
    ∃ owner', evs.foldlM serve owner = some owner' ∧ Owners s' owner' := by
  cases hdoes with
  | goes t q evs hgoes => exact ⟨owner, hgoes.serve owner, h.keep rfl rfl hgoes.leaves⟩
  | sets t l q hsets hfree => exact ⟨owner, rfl, h.keep rfl rfl hsets.leaves⟩
  | locksList t l q hlocks hfree => exact ⟨owner, rfl, h.keep rfl rfl hlocks.leaves⟩
  | unlocksList t l q hunlocks => exact ⟨owner, rfl, h.keep rfl rfl hunlocks.leaves⟩
  | pushFrontToHoldingList t l hp =>
    have hlist : ({ s with holding_lock_list_ := update s.holding_lock_list_ t (l :: s.holding_lock_list_ t) }.goto t .idle).holding_lock_list_ =
      update s.holding_lock_list_ t (l :: s.holding_lock_list_ t) := rfl
    obtain ⟨hnone, howners⟩ := h.acquired hinv hp hlist rfl
    exact ⟨_, by simp [serve, hnone], howners⟩
  | removeFromHoldingList t l hp => exact ⟨owner, rfl, h.unlist hinv hp rfl rfl⟩
  | clearLock t l hp =>
    have hlist : ({ s with lock_ := update s.lock_ l false }.goto t .idle).holding_lock_list_ = s.holding_lock_list_ := rfl
    obtain ⟨hsome, howners⟩ := h.released hinv hp hlist rfl
    exact ⟨_, by simp [serve, hsome], howners⟩
  | _ t l hp => exact ⟨owner, rfl, h.keep rfl rfl fun k => by simp [hp]⟩

theorem refines (hboot : Boot s₀) (hrun : Runs step (fun _ _ => True) s₀ tr s) :
    SpinInv s ∧ ∃ owner, tr.foldlM serve (fun _ => none) = some owner ∧ Owners s owner := by
  refine hrun.invariant (I := fun tr s => SpinInv s ∧ ∃ owner, tr.foldlM serve (fun _ => none) = some owner ∧ Owners s owner)
    ⟨hboot.spinInv, fun _ => none, rfl, fun t l => ?_⟩ ?_
  · simp [Entered, hboot.holding_lock_list_, hboot.pc]
  · rintro tr s act s' evs ⟨hinv, owner, hserve, howners⟩ - hs
    have hdoes := step_does hs
    obtain ⟨owner', hevs, howners'⟩ := howners.does hinv hdoes
    refine ⟨hinv.does hdoes, owner', ?_, howners'⟩
    rw [List.foldlM_append, hserve]
    exact hevs

/-! ### The check before waiting -/

def WaitsFor (s : State) (x y : ℕ) : Prop := ∃ l, x ∈ s.waiters_list_ l ∧ s.held_by_ l = some y

/-- The lock is held by a thread that waits, directly or not, for `t`. -/
def Closes (s : State) (t l : ℕ) : Prop := ∃ u, s.held_by_ l = some u ∧ ReflTransGen (WaitsFor s) u t

def Settled (s : State) (x : ℕ) : Prop := ∀ l, l ∈ s.holding_lock_list_ x ↔ s.held_by_ l = some x

theorem SpinInv.settled_of_queued (h : SpinInv s) (hx : x ∈ s.waiters_list_ l) : Settled s x := by
  have hqueued := (h.lists.queued x l).mp hx
  intro k
  have hnot : ¬(s.pc x).unlisted k := by
    revert hqueued
    cases s.pc x <;> simp
  rw [h.holding.mem]
  exact and_iff_left hnot

theorem SpinInv.settled_of_checks (h : SpinInv s) (hx : (s.pc x).checks l) : Settled s x := by
  intro k
  have hnot : ¬(s.pc x).unlisted k := by
    revert hx
    cases s.pc x <;> simp
  rw [h.holding.mem]
  exact and_iff_left hnot

/-- A failed assertion is a chain to the thread. -/
theorem SpinInv.circular_true (h : SpinInv s) (hx : Settled s x) (hhit : s.checkForCircularDeadLock l depth x = some true) :
    ∃ u, s.held_by_ l = some u ∧ ReflTransGen (WaitsFor s) u x := by
  induction depth generalizing x with
  | zero => cases hhit
  | succ depth ih =>
    rw [State.checkForCircularDeadLock] at hhit
    obtain ⟨lock, hlock, hhit⟩ := firstHit_true hhit
    have hheld := (hx lock).mp hlock
    split at hhit
    · rename_i heq
      rw [heq] at hheld
      exact ⟨x, hheld, .refl⟩
    · obtain ⟨w, hw, hhit⟩ := firstHit_true hhit
      obtain ⟨u, hu, hpath⟩ := ih (h.settled_of_queued hw) hhit
      exact ⟨u, hu, hpath.tail ⟨lock, hw, hheld⟩⟩

/-- A check that passes has followed all chains. -/
theorem SpinInv.circular_false (h : SpinInv s) (hx : Settled s x) (hhit : s.checkForCircularDeadLock l depth x = some false)
    (hu : s.held_by_ l = some u) : ¬ReflTransGen (WaitsFor s) u x := by
  induction depth generalizing x with
  | zero => cases hhit
  | succ depth ih =>
    rw [State.checkForCircularDeadLock] at hhit
    have hpass := firstHit_false hhit
    intro hpath
    obtain rfl | ⟨w, hrest, lock, hw, hheld⟩ := hpath.cases_tail
    · have hself := hpass l ((hx l).mpr hu)
      rw [if_pos rfl] at hself
      cases hself
    · have hnext := hpass lock ((hx lock).mpr hheld)
      split at hnext
      · cases hnext
      · exact ih (h.settled_of_queued hw) (firstHit_false hnext w hw) hrest

/-- The check ends: the rank of the thread drops with every nested call. -/
theorem SpinInv.circular_ends (h : SpinInv s) (hacyclic : Acyclic (WaitsFor s)) {S : Finset ℕ} (hS : ∀ x, s.pc x ≠ .idle → x ∈ S)
    (hx : Settled s x) (hmem : x ∈ S) (hdepth : rank (Function.swap (WaitsFor s)) S x < depth) :
    s.checkForCircularDeadLock l depth x ≠ none := by
  have hback : Acyclic (Function.swap (WaitsFor s)) := by
    intro y hy
    rw [transGen_swap] at hy
    exact hacyclic y hy
  induction depth generalizing x with
  | zero => omega
  | succ depth ih =>
    rw [State.checkForCircularDeadLock]
    refine firstHit_ends fun lock hlock => ?_
    have hheld := (hx lock).mp hlock
    split
    · exact Option.some_ne_none _
    · refine firstHit_ends fun w hw => ?_
      have hedge : Function.swap (WaitsFor s) x w := ⟨lock, hw, hheld⟩
      have hlt := rank_lt hback hmem hedge
      have hwS : w ∈ S := by
        refine hS w fun hidle => ?_
        have hqueued := (h.lists.queued w lock).mp hw
        rw [hidle] at hqueued
        cases hqueued
      exact ih (h.settled_of_queued hw) hwS (by omega)

/-- The check fails exactly if the lock is held by a thread that waits for the one that is checked. -/
theorem SpinInv.checkForDeadLock_iff (h : SpinInv s) (hx : (s.pc t).checks l) {r : Bool} (hr : s.checkForDeadLock depth t l = some r) :
    r = true ↔ Closes s t l := by
  have hsettled := h.settled_of_checks hx
  rw [State.checkForDeadLock] at hr
  split at hr
  · rename_i hself
    cases hr
    exact ⟨fun _ => ⟨t, hself, .refl⟩, fun _ => rfl⟩
  · cases r with
    | true => exact ⟨fun _ => h.circular_true hsettled hr, fun _ => rfl⟩
    | false =>
      refine ⟨fun hf => absurd hf Bool.false_ne_true, fun ⟨u, hu, hpath⟩ => ?_⟩
      exact absurd hpath (h.circular_false hsettled hr hu)

theorem SpinInv.checkForDeadLock_ends (h : SpinInv s) (hacyclic : Acyclic (WaitsFor s)) (hx : (s.pc t).checks l) :
    ∃ n, ∀ depth, n ≤ depth → s.checkForDeadLock depth t l ≠ none := by
  obtain ⟨S, hS⟩ := h.finite
  refine ⟨S.card + 1, fun depth hdepth => ?_⟩
  have hmem : t ∈ S := by
    refine hS t fun hidle => ?_
    rw [hidle] at hx
    cases hx
  have hle := rank_le (R := Function.swap (WaitsFor s)) (x := t) S
  rw [State.checkForDeadLock]
  split
  · exact Option.some_ne_none _
  · exact h.circular_ends hacyclic hS (h.settled_of_checks hx) hmem (by omega)

theorem SpinInv.doChecksBeforeWaiting_eq (h : SpinInv s) (hx : (s.pc t).checks l) : s.doChecksBeforeWaiting depth t l q =
    match s.checkForDeadLock depth t l with
    | none => .error .disabled
    | some true => .error (.panic .deadLock)
    | some false => .ok (s.goto t q, []) := by
  have hnone : s.lock_waiting_on_ t = none := by
    rw [h.holding.waitingOn]
    revert hx
    cases s.pc t <;> simp
  exact if_neg (not_not.mpr hnone)

/-- The panics that a step of the thread may run into. -/
def Panics (s : State) (t : ℕ) : Panic → Prop
  | .deadLock => ∃ l, (s.pc t).checks l ∧ Closes s t l
  | .invalidRelease => ∃ l, s.pc t = .checkInvalidRelease l ∧ ¬Entered s t l
  | .stillWaiting | .heldBy | .waitersListNotLocked | .noWaiters => False

theorem not_panics {e : Panic} (hchecks : ∀ l, ¬(s.pc t).checks l) (hrelease : ∀ l, s.pc t ≠ .checkInvalidRelease l) : ¬Panics s t e := by
  cases e with
  | deadLock => exact fun ⟨l, hl, _⟩ => hchecks l hl
  | invalidRelease => exact fun ⟨l, hl, _⟩ => hrelease l hl
  | _ => exact id

theorem SpinInv.panics_of_checks (h : SpinInv s) {e : Panic} (hx : ∀ k, (s.pc t).checks k ↔ k = l)
    (hrelease : ∀ k, s.pc t ≠ .checkInvalidRelease k) (hends : s.doChecksBeforeWaiting depth t l q ≠ .error .disabled) :
    s.doChecksBeforeWaiting depth t l q = .error (.panic e) ↔ Panics s t e := by
  have hl := (hx l).mpr rfl
  have hpanics : Panics s t e ↔ e = .deadLock ∧ Closes s t l := by
    cases e with
    | deadLock => simp only [Panics, hx, exists_eq_left, true_and]
    | invalidRelease => simp [Panics, hrelease]
    | _ => simp [Panics]
  rw [h.doChecksBeforeWaiting_eq hl] at hends ⊢
  rw [hpanics]
  cases hr : s.checkForDeadLock depth t l with
  | none =>
    rw [hr] at hends
    exact absurd rfl hends
  | some r =>
    rw [← h.checkForDeadLock_iff hl hr]
    cases r <;> simp [eq_comm]

theorem SpinInv.entered_iff (h : SpinInv s) (hp : s.pc t = .checkInvalidRelease l) : Entered s t l ↔ s.held_by_ l = some t := by
  rw [Entered, h.holding.mem, hp]
  simp

theorem testSetLock_not_panic {busy : Result} {e : Panic} (hbusy : busy ≠ .error (.panic e)) : s.testSetLock t l q busy ≠ .error (.panic e) := by
  unfold State.testSetLock
  split
  · exact hbusy
  · simp

theorem lockWaitersList_not_panic {e : Panic} : s.lockWaitersList t l q ≠ .error (.panic e) := by
  unfold State.lockWaitersList
  split <;> simp

/-- Panics at the places that have assertions of their own, and at no other place. -/
theorem SpinInv.panics_iff (h : SpinInv s) {e : Panic} (hends : s.perform depth t (s.pc t) ≠ .error .disabled) :
    s.perform depth t (s.pc t) = .error (.panic e) ↔ Panics s t e := by
  cases hp : s.pc t with
  | doChecksBeforeWaiting l =>
    rw [hp] at hends
    exact h.panics_of_checks (fun k => by simp [hp]) (fun k => by simp [hp]) hends
  | tryChecks l =>
    rw [hp] at hends
    exact h.panics_of_checks (fun k => by simp [hp]) (fun k => by simp [hp]) hends
  | checkInvalidRelease l =>
    have hpanics : Panics s t e ↔ e = .invalidRelease ∧ s.held_by_ l ≠ some t := by
      cases e with
      | invalidRelease => simp [Panics, hp, h.entered_iff hp]
      | _ => simp [Panics, hp]
    rw [hpanics, State.perform]
    split
    · rename_i hheld
      simp [hheld]
    · rename_i hheld
      simp [hheld, eq_comm]
  | removeFromWaitersList l =>
    have hlocked : s.waiters_list_lock_ l = true := h.lists.locked.set (t := t) (by rw [hp]; rfl)
    have hmem : t ∈ s.waiters_list_ l := (h.lists.queued t l).mpr (by rw [hp]; rfl)
    refine iff_of_false ?_ (not_panics (by simp [hp]) (by simp [hp]))
    rw [State.perform, if_neg (by simp [hlocked]), if_neg (List.ne_nil_of_mem hmem)]
    exact fun heq => by cases heq
  | pushFront l =>
    have hlocked : s.waiters_list_lock_ l = true := h.lists.locked.set (t := t) (by rw [hp]; rfl)
    refine iff_of_false ?_ (not_panics (by simp [hp]) (by simp [hp]))
    rw [State.perform, if_pos hlocked]
    exact fun heq => by cases heq
  | assertNotHeld l =>
    have hnone : s.held_by_ l = none := h.locks.fresh t l (by rw [hp]; rfl)
    refine iff_of_false ?_ (not_panics (by simp [hp]) (by simp [hp]))
    rw [State.perform, if_pos hnone]
    exact fun heq => by cases heq
  | testSetLock l =>
    exact iff_of_false (testSetLock_not_panic fun heq => by cases heq) (not_panics (by simp [hp]) (by simp [hp]))
  | testSetLockAgain l =>
    exact iff_of_false (testSetLock_not_panic fun heq => by cases heq) (not_panics (by simp [hp]) (by simp [hp]))
  | tryTestSetLock l =>
    exact iff_of_false (testSetLock_not_panic fun heq => by cases heq) (not_panics (by simp [hp]) (by simp [hp]))
  | lockWaitersList l => exact iff_of_false lockWaitersList_not_panic (not_panics (by simp [hp]) (by simp [hp]))
  | lockWaitersListAgain l => exact iff_of_false lockWaitersList_not_panic (not_panics (by simp [hp]) (by simp [hp]))
  | _ => exact iff_of_false (fun heq => by cases heq) (not_panics (by simp [hp]) (by simp [hp]))

/-! ### Runs -/

theorem SpinInv.lock_iff (h : SpinInv s) (l : ℕ) : s.lock_ l = true ↔ ∃! t, Owns s t l := by
  constructor
  · intro hl
    obtain ⟨t, ht⟩ := h.locks.owner l hl
    exact ⟨t, ht, fun u hu => h.locks.owners.once hu ht⟩
  · rintro ⟨t, ht, -⟩
    exact h.locks.owners.set ht

/-- The calls of all threads are steps of atomic locks, in the order in which they return. -/
theorem spin_locks_atomic (hboot : Boot s₀) (hrun : Runs step (fun _ _ => True) s₀ tr s) :
    (∃ owner, tr.foldlM serve (fun _ => none) = some owner ∧ Owners s owner) ∧ (∀ l, s.lock_ l = true ↔ ∃! t, Owns s t l) ∧
      (∀ t l, t ∈ s.waiters_list_ l ↔ (s.pc t).queued l) ∧
      ∀ t l, l ∈ s.holding_lock_list_ t ↔ s.held_by_ l = some t ∧ ¬(s.pc t).unlisted l := by
  obtain ⟨hinv, howners⟩ := refines hboot hrun
  exact ⟨howners, hinv.lock_iff, hinv.lists.queued, hinv.holding.mem⟩

def boot : State where
  lock_ _ := false
  held_by_ _ := none
  waiters_list_ _ := []
  waiters_list_lock_ _ := false
  pc _ := .idle
  lock_waiting_on_ _ := none
  holding_lock_list_ _ := []

theorem boot_boot : Boot boot := ⟨fun _ => rfl, fun _ => rfl, fun _ => rfl, fun _ => rfl, fun _ => rfl, fun _ => rfl, fun _ => rfl⟩

/-- A thread has the lock, and another one waits for it and gets it. -/
def contended : List Act :=
  .call 0 (.acquire 0) :: List.replicate 3 (.run 0 2) ++ .call 1 (.acquire 0) :: List.replicate 6 (.run 1 2) ++
    .call 0 (.release 0) :: List.replicate 4 (.run 0 2) ++ List.replicate 7 (.run 1 2)

theorem spin_locks_atomic_contended : ∃ s, Runs step (fun _ _ => True) boot [.acquired 0 0, .released 0 0, .acquired 1 0] s ∧
    s.held_by_ 0 = some 1 ∧ ∃! t, Owns s t 0 := by
  have hexec : exec step boot contended = .ok (_, [.acquired 0 0, .released 0 0, .acquired 1 0]) := rfl
  have hrun := runs_of_exec step boot contended hexec
  exact ⟨_, hrun, rfl, ((spin_locks_atomic boot_boot hrun).2.1 0).mp rfl⟩

/-- A step that ends panics exactly where a thread is about to wait for itself, or releases what it has not acquired. It ends as long as
the threads do not wait for each other. -/
theorem spin_lock_panics (hboot : Boot s₀) (hrun : Runs step (fun _ _ => True) s₀ tr s) (t : ℕ) :
    (∀ depth e, step s (.run t depth) ≠ .error .disabled → (step s (.run t depth) = .error (.panic e) ↔ Panics s t e)) ∧
      (Acyclic (WaitsFor s) → ∀ l, (s.pc t).checks l → ∃ n, ∀ depth, n ≤ depth → step s (.run t depth) ≠ .error .disabled) := by
  have hinv := spinInv hboot hrun
  refine ⟨fun depth e hends => hinv.panics_iff hends, fun hacyclic l hl => ?_⟩
  obtain ⟨n, hn⟩ := hinv.checkForDeadLock_ends hacyclic hl
  refine ⟨n, fun depth hdepth => ?_⟩
  have hsome : ∀ q, s.doChecksBeforeWaiting depth t l q ≠ .error .disabled := by
    intro q
    rw [hinv.doChecksBeforeWaiting_eq hl]
    cases hr : s.checkForDeadLock depth t l with
    | none => exact absurd hr (hn depth hdepth)
    | some r => cases r <;> simp
  rw [step]
  cases hp : s.pc t with
  | doChecksBeforeWaiting k =>
    rw [hp] at hl
    obtain rfl : l = k := hl
    exact hsome _
  | tryChecks k =>
    rw [hp] at hl
    obtain rfl : l = k := hl
    exact hsome _
  | _ =>
    rw [hp] at hl
    cases hl

/-- Each of two threads has a lock, the first one waits for the other, and the second one tries to get the lock of the first. -/
def circle : List Act :=
  .call 0 (.acquire 0) :: List.replicate 3 (.run 0 2) ++ .call 1 (.acquire 1) :: List.replicate 3 (.run 1 2) ++
    .call 0 (.acquire 1) :: List.replicate 6 (.run 0 2) ++ .call 1 (.acquireNonBlocking 0) :: []

theorem spin_lock_panics_circle : (∃ s, Runs step (fun _ _ => True) boot [.acquired 0 0, .acquired 1 1] s ∧ Closes s 1 0) ∧
    ∃ s, Runs step (fun _ _ => True) boot [] s ∧ ∃ n, ∀ depth, n ≤ depth → step s (.run 0 depth) ≠ .error .disabled := by
  constructor
  · have hexec : exec step boot circle = .ok (_, [.acquired 0 0, .acquired 1 1]) := rfl
    have hrun := runs_of_exec step boot circle hexec
    refine ⟨_, hrun, ?_⟩
    have hpanics : Panics _ 1 .deadLock := ((spin_lock_panics boot_boot hrun 1).1 2 .deadLock (fun heq => by cases heq)).mp rfl
    obtain ⟨l, hl, hcloses⟩ := hpanics
    obtain rfl : l = 0 := hl
    exact hcloses
  · have hexec : exec step boot [.call 0 (.acquireNonBlocking 0)] = .ok (_, []) := rfl
    have hrun := runs_of_exec step boot _ hexec
    refine ⟨_, hrun, (spin_lock_panics boot_boot hrun 0).2 (fun x hx => ?_) 0 rfl⟩
    obtain ⟨y, ⟨l, hmem, -⟩, -⟩ := TransGen.head'_iff.mp hx
    cases hmem

end KPanic.SpinLocks

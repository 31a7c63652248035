import KPanic.Kernel.SpinLock

/-!
# Who has a spin lock

The place of a thread tells which locks it has set, which list of waiters it has locked and is on. The fields of the locks say the same.
-/

namespace KPanic.SpinLocks

open Function
open Machine
open TestAndSet
open Relation (ReflTransGen)

namespace Pc

/-- The thread has set `lock_`, and `held_by_` does not say so. -/
@[simp]
def sets : Pc → ℕ → Prop
  | .lockWaitersListAgain l, k | .removeFromWaitersList l, k | .unlockWaitersListAgain l, k | .clearWaitingOn l, k
  | .setHeldBy l, k | .assertNotHeld l, k | .clearLock l, k => k = l
  | _, _ => False

/-- `held_by_` is the thread. -/
@[simp]
def holds : Pc → ℕ → Prop
  | .pushFrontToHoldingList l, k | .removeFromHoldingList l, k | .clearHeldBy l, k => k = l
  | _, _ => False

/-- The thread holds the lock, and its list does not say so. -/
@[simp]
def unlisted : Pc → ℕ → Prop
  | .pushFrontToHoldingList l, k | .clearHeldBy l, k => k = l
  | _, _ => False

/-- The thread has locked the list of waiters. -/
@[simp]
def locksList : Pc → ℕ → Prop
  | .pushFront l, k | .unlockWaitersList l, k | .removeFromWaitersList l, k | .unlockWaitersListAgain l, k => k = l
  | _, _ => False

/-- The thread is on the list of waiters. -/
@[simp]
def queued : Pc → ℕ → Prop
  | .unlockWaitersList l, k | .testSetLockAgain l, k | .lockWaitersListAgain l, k | .removeFromWaitersList l, k => k = l
  | _, _ => False

@[simp]
def waitsOn : Pc → Option ℕ
  | .lockWaitersList l | .pushFront l | .unlockWaitersList l | .testSetLockAgain l | .lockWaitersListAgain l
  | .removeFromWaitersList l | .unlockWaitersListAgain l | .clearWaitingOn l => some l
  | _ => none

@[simp]
def checks : Pc → ℕ → Prop
  | .doChecksBeforeWaiting l, k | .tryChecks l, k => k = l
  | _, _ => False

end Pc

variable {s s' s₀ : State} {t u x y k l depth : ℕ} {p q : Pc} {tr evs : List Event}

/-- The thread is between the success of `testSetLock` and the end of `release`. -/
def Owns (s : State) (t l : ℕ) : Prop := s.held_by_ l = some t ∨ (s.pc t).sets l

structure LockInv (s : State) : Prop where
  owners : Guarded (Owns s) s.lock_
  owner : ∀ l, s.lock_ l = true → ∃ t, Owns s t l
  fresh : ∀ t l, (s.pc t).sets l → s.held_by_ l = none
  holds : ∀ t l, (s.pc t).holds l → s.held_by_ l = some t

structure ListInv (s : State) : Prop where
  locked : Guarded (fun t l => (s.pc t).locksList l) s.waiters_list_lock_
  queued : ∀ x l, x ∈ s.waiters_list_ l ↔ (s.pc x).queued l
  nodup : ∀ l, (s.waiters_list_ l).Nodup

structure HoldingInv (s : State) : Prop where
  mem : ∀ x l, l ∈ s.holding_lock_list_ x ↔ s.held_by_ l = some x ∧ ¬(s.pc x).unlisted l
  nodup : ∀ x, (s.holding_lock_list_ x).Nodup
  waitingOn : ∀ x, s.lock_waiting_on_ x = (s.pc x).waitsOn

/-! ### Steps -/

/-- Steps that change the place only. -/
inductive Goes (s : State) (t : ℕ) : Pc → Pc → List Event → Prop
  | call (f : Call) : Goes s t .idle f.start []
  | busy (l : ℕ) : Goes s t (.testSetLock l) (.doChecksBeforeWaiting l) []
  | checked (l : ℕ) : Goes s t (.doChecksBeforeWaiting l) (.setWaitingOn l) []
  | tryChecked (l : ℕ) : Goes s t (.tryChecks l) (.tryTestSetLock l) []
  | refused (l : ℕ) : Goes s t (.tryTestSetLock l) .idle [.refused t l]
  | notHeld (l : ℕ) : Goes s t (.assertNotHeld l) (.setHeldBy l) []
  | valid (l : ℕ) (hheld : s.held_by_ l = some t) : Goes s t (.checkInvalidRelease l) (.removeFromHoldingList l) []

/-- Where `testSetLock` finds the lock free. -/
inductive Sets (l : ℕ) : Pc → Pc → Prop
  | acquire : Sets l (.testSetLock l) (.setHeldBy l)
  | again : Sets l (.testSetLockAgain l) (.lockWaitersListAgain l)
  | nonBlocking : Sets l (.tryTestSetLock l) (.assertNotHeld l)

inductive LocksList (l : ℕ) : Pc → Pc → Prop
  | push : LocksList l (.lockWaitersList l) (.pushFront l)
  | remove : LocksList l (.lockWaitersListAgain l) (.removeFromWaitersList l)

inductive UnlocksList (l : ℕ) : Pc → Pc → Prop
  | push : UnlocksList l (.unlockWaitersList l) (.testSetLockAgain l)
  | remove : UnlocksList l (.unlockWaitersListAgain l) (.clearWaitingOn l)

/-- What a step can do. -/
inductive Does (s : State) : State → List Event → Prop
  | goes (t : ℕ) (q : Pc) (evs : List Event) (h : Goes s t (s.pc t) q evs) : Does s (s.goto t q) evs
  | sets (t l : ℕ) (q : Pc) (h : Sets l (s.pc t) q) (hfree : s.lock_ l = false) :
    Does s ({ s with lock_ := update s.lock_ l true }.goto t q) []
  | locksList (t l : ℕ) (q : Pc) (h : LocksList l (s.pc t) q) (hfree : s.waiters_list_lock_ l = false) :
    Does s ({ s with waiters_list_lock_ := update s.waiters_list_lock_ l true }.goto t q) []
  | unlocksList (t l : ℕ) (q : Pc) (h : UnlocksList l (s.pc t) q) :
    Does s ({ s with waiters_list_lock_ := update s.waiters_list_lock_ l false }.goto t q) []
  | setWaitingOn (t l : ℕ) (h : s.pc t = .setWaitingOn l) :
    Does s ({ s with lock_waiting_on_ := update s.lock_waiting_on_ t (some l) }.goto t (.lockWaitersList l)) []
  | pushFront (t l : ℕ) (h : s.pc t = .pushFront l) :
    Does s ({ s with waiters_list_ := update s.waiters_list_ l (t :: s.waiters_list_ l) }.goto t (.unlockWaitersList l)) []
  | remove (t l : ℕ) (h : s.pc t = .removeFromWaitersList l) :
    Does s ({ s with waiters_list_ := update s.waiters_list_ l ((s.waiters_list_ l).erase t) }.goto t (.unlockWaitersListAgain l)) []
  | clearWaitingOn (t l : ℕ) (h : s.pc t = .clearWaitingOn l) :
    Does s ({ s with lock_waiting_on_ := update s.lock_waiting_on_ t none }.goto t (.setHeldBy l)) []
  | setHeldBy (t l : ℕ) (h : s.pc t = .setHeldBy l) :
    Does s ({ s with held_by_ := update s.held_by_ l (some t) }.goto t (.pushFrontToHoldingList l)) []
  | pushFrontToHoldingList (t l : ℕ) (h : s.pc t = .pushFrontToHoldingList l) :
    Does s ({ s with holding_lock_list_ := update s.holding_lock_list_ t (l :: s.holding_lock_list_ t) }.goto t .idle) [.acquired t l]
  | removeFromHoldingList (t l : ℕ) (h : s.pc t = .removeFromHoldingList l) :
    Does s ({ s with holding_lock_list_ := update s.holding_lock_list_ t ((s.holding_lock_list_ t).erase l) }.goto t (.clearHeldBy l)) []
  | clearHeldBy (t l : ℕ) (h : s.pc t = .clearHeldBy l) :
    Does s ({ s with held_by_ := update s.held_by_ l none }.goto t (.clearLock l)) []
  | clearLock (t l : ℕ) (h : s.pc t = .clearLock l) : Does s ({ s with lock_ := update s.lock_ l false }.goto t .idle) [.released t l]

theorem testSetLock_ok {busy : Result} {r : State × List Event} (h : s.testSetLock t l q busy = .ok r) :
    busy = .ok r ∨ s.lock_ l = false ∧ r = ({ s with lock_ := update s.lock_ l true }.goto t q, []) := by
  unfold State.testSetLock at h
  split at h
  · exact .inl h
  · rename_i hfree
    cases h
    exact .inr ⟨Bool.eq_false_iff.mpr hfree, rfl⟩

theorem doChecksBeforeWaiting_ok {r : State × List Event} (h : s.doChecksBeforeWaiting depth t l q = .ok r) : r = (s.goto t q, []) := by
  unfold State.doChecksBeforeWaiting at h
  split at h
  · cases h
  split at h <;> cases h
  rfl

theorem lockWaitersList_ok {r : State × List Event} (h : s.lockWaitersList t l q = .ok r) : s.waiters_list_lock_ l = false ∧
    r = ({ s with waiters_list_lock_ := update s.waiters_list_lock_ l true }.goto t q, []) := by
  unfold State.lockWaitersList at h
  split at h
  · cases h
  · rename_i hfree
    cases h
    exact ⟨Bool.eq_false_iff.mpr hfree, rfl⟩

theorem perform_does (hs : s.perform depth t (s.pc t) = .ok (s', evs)) : Does s s' evs := by
  cases hp : s.pc t with
  | idle =>
    rw [hp] at hs
    cases hs
  | testSetLock l =>
    rw [hp] at hs
    obtain hbusy | ⟨hfree, heq⟩ := testSetLock_ok hs
    · cases hbusy
      exact .goes t _ _ (hp ▸ .busy l)
    · cases heq
      exact .sets t l _ (hp ▸ .acquire) hfree
  | doChecksBeforeWaiting l =>
    rw [hp] at hs
    cases doChecksBeforeWaiting_ok hs
    exact .goes t _ _ (hp ▸ .checked l)
  | setWaitingOn l =>
    rw [hp] at hs
    cases hs
    exact .setWaitingOn t l hp
  | lockWaitersList l =>
    rw [hp] at hs
    obtain ⟨hfree, heq⟩ := lockWaitersList_ok hs
    cases heq
    exact .locksList t l _ (hp ▸ .push) hfree
  | pushFront l =>
    rw [hp] at hs
    simp only [State.perform] at hs
    split at hs <;> cases hs
    exact .pushFront t l hp
  | unlockWaitersList l =>
    rw [hp] at hs
    cases hs
    exact .unlocksList t l _ (hp ▸ .push)
  | testSetLockAgain l =>
    rw [hp] at hs
    obtain hbusy | ⟨hfree, heq⟩ := testSetLock_ok hs
    · cases hbusy
    · cases heq
      exact .sets t l _ (hp ▸ .again) hfree
  | lockWaitersListAgain l =>
    rw [hp] at hs
    obtain ⟨hfree, heq⟩ := lockWaitersList_ok hs
    cases heq
    exact .locksList t l _ (hp ▸ .remove) hfree
  | removeFromWaitersList l =>
    rw [hp] at hs
    simp only [State.perform] at hs
    split at hs
    · cases hs
    split at hs <;> cases hs
    exact .remove t l hp
  | unlockWaitersListAgain l =>
    rw [hp] at hs
    cases hs
    exact .unlocksList t l _ (hp ▸ .remove)
  | clearWaitingOn l =>
    rw [hp] at hs
    cases hs
    exact .clearWaitingOn t l hp
  | setHeldBy l =>
    rw [hp] at hs
    cases hs
    exact .setHeldBy t l hp
  | pushFrontToHoldingList l =>
    rw [hp] at hs
    cases hs
    exact .pushFrontToHoldingList t l hp
  | tryChecks l =>
    rw [hp] at hs
    cases doChecksBeforeWaiting_ok hs
    exact .goes t _ _ (hp ▸ .tryChecked l)
  | tryTestSetLock l =>
    rw [hp] at hs
    obtain hbusy | ⟨hfree, heq⟩ := testSetLock_ok hs
    · cases hbusy
      exact .goes t _ _ (hp ▸ .refused l)
    · cases heq
      exact .sets t l _ (hp ▸ .nonBlocking) hfree
  | assertNotHeld l =>
    rw [hp] at hs
    simp only [State.perform] at hs
    split at hs <;> cases hs
    exact .goes t _ _ (hp ▸ .notHeld l)
  | checkInvalidRelease l =>
    rw [hp] at hs
    simp only [State.perform] at hs
    split at hs
    · rename_i hheld
      cases hs
      exact .goes t _ _ (hp ▸ .valid l hheld)
    · cases hs
  | removeFromHoldingList l =>
    rw [hp] at hs
    cases hs
    exact .removeFromHoldingList t l hp
  | clearHeldBy l =>
    rw [hp] at hs
    cases hs
    exact .clearHeldBy t l hp
  | clearLock l =>
    rw [hp] at hs
    cases hs
    exact .clearLock t l hp

theorem step_does {act : Act} (hs : step s act = .ok (s', evs)) : Does s s' evs := by
  cases act with
  | call t f =>
    simp only [step] at hs
    split at hs
    · rename_i hidle
      cases hs
      exact .goes t _ _ (hidle ▸ .call f)
    · cases hs
  | run t depth => exact perform_does hs

/-! ### Tables behind a step -/

/-- The place of one thread changes. -/
theorem place {P : Pc → Prop} {pc pc' : ℕ → Pc} (hpc : pc' = update pc t q) (h : P (pc' x)) : x = t ∧ P q ∨ x ≠ t ∧ P (pc x) := by
  subst hpc
  by_cases hx : x = t
  · rw [hx, update_self] at h
    exact .inl ⟨hx, h⟩
  · rw [update_of_ne hx] at h
    exact .inr ⟨hx, h⟩

theorem place_iff {P : Pc → Prop} {pc pc' : ℕ → Pc} (hpc : pc' = update pc t q) (h : P q ↔ P (pc t)) (x : ℕ) : P (pc' x) ↔ P (pc x) := by
  subst hpc
  by_cases hx : x = t
  · rw [hx, update_self]
    exact h
  · rw [update_of_ne hx]

theorem place_self {pc pc' : ℕ → Pc} (hpc : pc' = update pc t q) : pc' t = q := by rw [hpc, update_self]

theorem place_other {pc pc' : ℕ → Pc} (hpc : pc' = update pc t q) (hx : x ≠ t) : pc' x = pc x := by rw [hpc, update_of_ne hx]

theorem place_gone {P : Pc → Prop} {pc pc' : ℕ → Pc} (hpc : pc' = update pc t q) (hq : ¬P q) (h : P (pc' x)) : x ≠ t ∧ P (pc x) :=
  (place hpc h).resolve_left fun hnew => hq hnew.2

/-- Who is in the table stays in it. -/
theorem place_kept {P : Pc → Prop} {pc pc' : ℕ → Pc} (hpc : pc' = update pc t q) (hq : P (pc t) → P q) (h : P (pc x)) : P (pc' x) := by
  by_cases hx : x = t
  · rw [hx] at h ⊢
    rw [place_self hpc]
    exact hq h
  · rw [place_other hpc hx]
    exact h

theorem Goes.tables (h : Goes s t p q evs) (k : ℕ) : (q.sets k ↔ p.sets k) ∧ (q.holds k → s.held_by_ k = some t) ∧
    (q.unlisted k ↔ p.unlisted k) ∧ (q.locksList k ↔ p.locksList k) ∧ (q.queued k ↔ p.queued k) ∧ q.waitsOn = p.waitsOn := by
  cases h with
  | call f => cases f <;> simp [Call.start]
  | valid l hheld =>
    simp
    rintro rfl
    exact hheld
  | _ => simp

theorem Sets.tables (h : Sets l p q) (k : ℕ) : (q.sets k ↔ k = l) ∧ ¬p.sets k ∧ ¬q.holds k ∧
    (q.unlisted k ↔ p.unlisted k) ∧ (q.locksList k ↔ p.locksList k) ∧ (q.queued k ↔ p.queued k) ∧ q.waitsOn = p.waitsOn := by
  cases h <;> simp

theorem LocksList.tables (h : LocksList l p q) (k : ℕ) : (q.locksList k ↔ k = l) ∧ ¬q.holds k ∧ (q.sets k ↔ p.sets k) ∧
    (q.unlisted k ↔ p.unlisted k) ∧ (q.queued k ↔ p.queued k) ∧ q.waitsOn = p.waitsOn := by
  cases h <;> simp

theorem UnlocksList.tables (h : UnlocksList l p q) (k : ℕ) : (p.locksList k ↔ k = l) ∧ ¬q.locksList k ∧ ¬q.holds k ∧
    (q.sets k ↔ p.sets k) ∧ (q.unlisted k ↔ p.unlisted k) ∧ (q.queued k ↔ p.queued k) ∧ q.waitsOn = p.waitsOn := by
  cases h <;> simp

/-! ### Owners -/

theorem LockInv.not_held (h : LockInv s) (hfree : s.lock_ l = false) : s.held_by_ l = none := by
  cases hheld : s.held_by_ l with
  | none => rfl
  | some t => exact absurd (.inl hheld) (h.owners.not_own (t := t) hfree)

theorem LockInv.keep (h : LockInv s) (hlock : s'.lock_ = s.lock_) (hheld : s'.held_by_ = s.held_by_) (hpc : s'.pc = update s.pc t q)
    (hsets : ∀ k, q.sets k ↔ (s.pc t).sets k) (hholds : ∀ k, q.holds k → s.held_by_ k = some t) : LockInv s' := by
  have hiff : ∀ x k, (s'.pc x).sets k ↔ (s.pc x).sets k := fun x k => place_iff (P := (·.sets k)) hpc (hsets k) x
  have howns : ∀ x k, Owns s' x k ↔ Owns s x k := fun x k => by rw [Owns, Owns, hheld, hiff]
  refine ⟨?_, fun k hk => ?_, fun x k hx => ?_, fun x k hx => ?_⟩
  · rw [hlock]
    exact h.owners.keep fun x k => (howns x k).mp
  · obtain ⟨x, hx⟩ := h.owner k (hlock ▸ hk)
    exact ⟨x, (howns x k).mpr hx⟩
  · rw [hheld]
    exact h.fresh x k ((hiff x k).mp hx)
  · rw [hheld]
    obtain ⟨rfl, hq⟩ | ⟨-, hold⟩ := place (P := (·.holds k)) hpc hx
    · exact hholds k hq
    · exact h.holds x k hold

theorem LockInv.setLock (h : LockInv s) (hsets : Sets l (s.pc t) q) (hfree : s.lock_ l = false) (hlock : s'.lock_ = update s.lock_ l true)
    (hheld : s'.held_by_ = s.held_by_) (hpc : s'.pc = update s.pc t q) : LockInv s' := by
  refine ⟨?_, fun k hk => ?_, fun x k hx => ?_, fun x k hx => ?_⟩
  · rw [hlock]
    refine h.owners.take (t := t) hfree fun x k hx => ?_
    rw [Owns, hheld] at hx
    obtain hx | hx := hx
    · exact .inl (.inl hx)
    · obtain ⟨rfl, hq⟩ | ⟨-, hold⟩ := place (P := (·.sets k)) hpc hx
      · exact .inr ⟨rfl, (hsets.tables k).1.mp hq⟩
      · exact .inl (.inr hold)
  · by_cases hkl : k = l
    · refine ⟨t, .inr ?_⟩
      rw [place_self hpc]
      exact (hsets.tables k).1.mpr hkl
    · rw [hlock, update_of_ne hkl] at hk
      obtain ⟨x, hx | hx⟩ := h.owner k hk
      · exact ⟨x, .inl (by rw [hheld, hx])⟩
      · exact ⟨x, .inr (place_kept (P := (·.sets k)) hpc (fun hold => absurd hold (hsets.tables k).2.1) hx)⟩
  · rw [hheld]
    obtain ⟨rfl, hq⟩ | ⟨-, hold⟩ := place (P := (·.sets k)) hpc hx
    · obtain rfl := (hsets.tables k).1.mp hq
      exact h.not_held hfree
    · exact h.fresh x k hold
  · rw [hheld]
    exact h.holds x k (place_gone (P := (·.holds k)) hpc (hsets.tables k).2.2.1 hx).2

theorem LockInv.setHeldBy (h : LockInv s) (hp : s.pc t = .setHeldBy l) (hlock : s'.lock_ = s.lock_)
    (hheld : s'.held_by_ = update s.held_by_ l (some t)) (hpc : s'.pc = update s.pc t (.pushFrontToHoldingList l)) : LockInv s' := by
  have hsets : (s.pc t).sets l := by
    rw [hp]
    rfl
  have hplace : ∀ x k, (s'.pc x).sets k → x ≠ t ∧ (s.pc x).sets k := fun x k => place_gone (P := (·.sets k)) hpc id
  refine ⟨?_, fun k hk => ?_, fun x k hx => ?_, fun x k hx => ?_⟩
  · rw [hlock]
    refine h.owners.keep fun x k hx => ?_
    obtain hx | hx := hx
    · rw [hheld] at hx
      by_cases hkl : k = l
      · rw [hkl, update_self] at hx
        obtain rfl := Option.some.inj hx
        exact .inr (hkl ▸ hsets)
      · rw [update_of_ne hkl] at hx
        exact .inl hx
    · exact .inr (hplace x k hx).2
  · rw [hlock] at hk
    by_cases hkl : k = l
    · exact ⟨t, .inl (by rw [hheld, hkl, update_self])⟩
    · obtain ⟨x, hx | hx⟩ := h.owner k hk
      · exact ⟨x, .inl (by rw [hheld, update_of_ne hkl, hx])⟩
      · exact ⟨x, .inr (place_kept (P := (·.sets k)) hpc (fun hold => absurd hold (by simp [hp, hkl])) hx)⟩
  · obtain ⟨hxt, hold⟩ := hplace x k hx
    have hkl : k ≠ l := by
      rintro rfl
      exact hxt (h.owners.once (.inr hold) (.inr hsets))
    rw [hheld, update_of_ne hkl]
    exact h.fresh x k hold
  · rw [hheld]
    obtain ⟨rfl, hq⟩ | ⟨-, hold⟩ := place (P := (·.holds k)) hpc hx
    · obtain rfl : k = l := hq
      rw [update_self]
    · have hkl : k ≠ l := by
        rintro rfl
        exact absurd ((h.holds x k hold).symm.trans (h.fresh t k hsets)) (Option.some_ne_none x)
      rw [update_of_ne hkl]
      exact h.holds x k hold

theorem LockInv.clearHeldBy (h : LockInv s) (hp : s.pc t = .clearHeldBy l) (hlock : s'.lock_ = s.lock_)
    (hheld : s'.held_by_ = update s.held_by_ l none) (hpc : s'.pc = update s.pc t (.clearLock l)) : LockInv s' := by
  have hholds : s.held_by_ l = some t := h.holds t l (by rw [hp]; rfl)
  refine ⟨?_, fun k hk => ?_, fun x k hx => ?_, fun x k hx => ?_⟩
  · rw [hlock]
    refine h.owners.keep fun x k hx => ?_
    obtain hx | hx := hx
    · rw [hheld] at hx
      by_cases hkl : k = l
      · rw [hkl, update_self] at hx
        cases hx
      · rw [update_of_ne hkl] at hx
        exact .inl hx
    · obtain ⟨rfl, hq⟩ | ⟨-, hold⟩ := place (P := (·.sets k)) hpc hx
      · obtain rfl : k = l := hq
        exact .inl hholds
      · exact .inr hold
  · rw [hlock] at hk
    by_cases hkl : k = l
    · refine ⟨t, .inr ?_⟩
      rw [place_self hpc]
      exact hkl
    · obtain ⟨x, hx | hx⟩ := h.owner k hk
      · exact ⟨x, .inl (by rw [hheld, update_of_ne hkl, hx])⟩
      · exact ⟨x, .inr (place_kept (P := (·.sets k)) hpc (fun hold => absurd hold (by simp [hp])) hx)⟩
  · rw [hheld]
    by_cases hkl : k = l
    · rw [hkl, update_self]
    · rw [update_of_ne hkl]
      exact h.fresh x k (place_gone (P := (·.sets k)) hpc hkl hx).2
  · obtain ⟨hxt, hold⟩ := place_gone (P := (·.holds k)) hpc id hx
    have hkl : k ≠ l := by
      rintro rfl
      exact hxt (Option.some.inj ((h.holds x k hold).symm.trans hholds))
    rw [hheld, update_of_ne hkl]
    exact h.holds x k hold

theorem LockInv.clearLock (h : LockInv s) (hp : s.pc t = .clearLock l) (hlock : s'.lock_ = update s.lock_ l false)
    (hheld : s'.held_by_ = s.held_by_) (hpc : s'.pc = update s.pc t .idle) : LockInv s' := by
  have hsets : (s.pc t).sets l := by
    rw [hp]
    rfl
  have hplace : ∀ x k, (s'.pc x).sets k → x ≠ t ∧ (s.pc x).sets k := fun x k => place_gone (P := (·.sets k)) hpc id
  refine ⟨?_, fun k hk => ?_, fun x k hx => ?_, fun x k hx => ?_⟩
  · rw [hlock]
    refine h.owners.drop (t := t) (.inr hsets) fun x k hx => ?_
    rw [Owns, hheld] at hx
    obtain hx | hx := hx
    · refine ⟨.inl hx, ?_⟩
      rintro ⟨rfl, rfl⟩
      exact absurd (hx.symm.trans (h.fresh x k hsets)) (Option.some_ne_none x)
    · obtain ⟨hxt, hold⟩ := hplace x k hx
      exact ⟨.inr hold, fun heq => hxt heq.1⟩
  · rw [hlock] at hk
    have hkl : k ≠ l := by
      rintro rfl
      rw [update_self] at hk
      cases hk
    rw [update_of_ne hkl] at hk
    obtain ⟨x, hx | hx⟩ := h.owner k hk
    · exact ⟨x, .inl (by rw [hheld, hx])⟩
    · exact ⟨x, .inr (place_kept (P := (·.sets k)) hpc (fun hold => absurd hold (by simp [hp, hkl])) hx)⟩
  · rw [hheld]
    exact h.fresh x k (hplace x k hx).2
  · rw [hheld]
    exact h.holds x k (place_gone (P := (·.holds k)) hpc id hx).2

theorem LockInv.does (h : LockInv s) (hdoes : Does s s' evs) : LockInv s' := by
  cases hdoes with
  | goes t q evs hgoes => exact h.keep rfl rfl rfl (fun k => (hgoes.tables k).1) fun k => (hgoes.tables k).2.1
  | sets t l q hsets hfree => exact h.setLock hsets hfree rfl rfl rfl
  | locksList t l q hlocks hfree =>
    exact h.keep rfl rfl rfl (fun k => (hlocks.tables k).2.2.1) fun k hk => absurd hk (hlocks.tables k).2.1
  | unlocksList t l q hunlocks =>
    exact h.keep rfl rfl rfl (fun k => (hunlocks.tables k).2.2.2.1) fun k hk => absurd hk (hunlocks.tables k).2.2.1
  | setWaitingOn t l hp => exact h.keep rfl rfl rfl (fun k => by simp [hp]) fun k hk => by cases hk
  | pushFront t l hp => exact h.keep rfl rfl rfl (fun k => by simp [hp]) fun k hk => by cases hk
  | remove t l hp => exact h.keep rfl rfl rfl (fun k => by simp [hp]) fun k hk => by cases hk
  | clearWaitingOn t l hp => exact h.keep rfl rfl rfl (fun k => by simp [hp]) fun k hk => by cases hk
  | setHeldBy t l hp => exact h.setHeldBy hp rfl rfl rfl
  | pushFrontToHoldingList t l hp => exact h.keep rfl rfl rfl (fun k => by simp [hp]) fun k hk => by cases hk
  | removeFromHoldingList t l hp =>
    refine h.keep rfl rfl rfl (fun k => by simp [hp]) fun k hk => ?_
    obtain rfl : k = l := hk
    exact h.holds t k (by rw [hp]; rfl)
  | clearHeldBy t l hp => exact h.clearHeldBy hp rfl rfl rfl
  | clearLock t l hp => exact h.clearLock hp rfl rfl rfl

/-! ### Waiters -/

theorem ListInv.keep (h : ListInv s) (hlock : s'.waiters_list_lock_ = s.waiters_list_lock_) (hlist : s'.waiters_list_ = s.waiters_list_)
    (hpc : s'.pc = update s.pc t q) (hlocks : ∀ k, q.locksList k ↔ (s.pc t).locksList k) (hqueued : ∀ k, q.queued k ↔ (s.pc t).queued k) :
    ListInv s' := by
  refine ⟨?_, fun x k => ?_, fun k => ?_⟩
  · rw [hlock]
    exact h.locked.keep fun x k => (place_iff (P := (·.locksList k)) hpc (hlocks k) x).mp
  · rw [hlist, h.queued x k]
    exact (place_iff (P := (·.queued k)) hpc (hqueued k) x).symm
  · rw [hlist]
    exact h.nodup k

theorem ListInv.lock (h : ListInv s) (hlocks : LocksList l (s.pc t) q) (hfree : s.waiters_list_lock_ l = false)
    (hlock : s'.waiters_list_lock_ = update s.waiters_list_lock_ l true) (hlist : s'.waiters_list_ = s.waiters_list_)
    (hpc : s'.pc = update s.pc t q) : ListInv s' := by
  refine ⟨?_, fun x k => ?_, fun k => ?_⟩
  · rw [hlock]
    refine h.locked.take (t := t) hfree fun x k hx => ?_
    obtain ⟨rfl, hq⟩ | ⟨-, hold⟩ := place (P := (·.locksList k)) hpc hx
    · exact .inr ⟨rfl, (hlocks.tables k).1.mp hq⟩
    · exact .inl hold
  · rw [hlist, h.queued x k]
    exact (place_iff (P := (·.queued k)) hpc (hlocks.tables k).2.2.2.2.1 x).symm
  · rw [hlist]
    exact h.nodup k

theorem ListInv.unlock (h : ListInv s) (hlocks : UnlocksList l (s.pc t) q)
    (hlock : s'.waiters_list_lock_ = update s.waiters_list_lock_ l false) (hlist : s'.waiters_list_ = s.waiters_list_)
    (hpc : s'.pc = update s.pc t q) : ListInv s' := by
  refine ⟨?_, fun x k => ?_, fun k => ?_⟩
  · rw [hlock]
    refine h.locked.drop (t := t) ((hlocks.tables l).1.mpr rfl) fun x k hx => ?_
    obtain ⟨hxt, hold⟩ := place_gone (P := (·.locksList k)) hpc (hlocks.tables k).2.1 hx
    exact ⟨hold, fun heq => hxt heq.1⟩
  · rw [hlist, h.queued x k]
    exact (place_iff (P := (·.queued k)) hpc (hlocks.tables k).2.2.2.2.2.1 x).symm
  · rw [hlist]
    exact h.nodup k

theorem ListInv.pushFront (h : ListInv s) (hp : s.pc t = .pushFront l) (hlock : s'.waiters_list_lock_ = s.waiters_list_lock_)
    (hlist : s'.waiters_list_ = update s.waiters_list_ l (t :: s.waiters_list_ l)) (hpc : s'.pc = update s.pc t (.unlockWaitersList l)) :
    ListInv s' := by
  have hnot : t ∉ s.waiters_list_ l := by simp [h.queued, hp]
  refine ⟨?_, fun x k => ?_, fun k => ?_⟩
  · rw [hlock]
    exact h.locked.keep fun x k => (place_iff (P := (·.locksList k)) hpc (by simp [hp]) x).mp
  · rw [hlist]
    by_cases hkl : k = l
    · subst hkl
      rw [update_self, List.mem_cons, h.queued]
      by_cases hxt : x = t
      · simp [hxt, place_self hpc]
      · simp [hxt, place_other hpc hxt]
    · rw [update_of_ne hkl, h.queued]
      exact (place_iff (P := (·.queued k)) hpc (by simp [hp, hkl]) x).symm
  · rw [hlist]
    by_cases hkl : k = l
    · rw [hkl, update_self]
      exact List.nodup_cons.mpr ⟨hnot, h.nodup l⟩
    · rw [update_of_ne hkl]
      exact h.nodup k

theorem ListInv.remove (h : ListInv s) (hp : s.pc t = .removeFromWaitersList l) (hlock : s'.waiters_list_lock_ = s.waiters_list_lock_)
    (hlist : s'.waiters_list_ = update s.waiters_list_ l ((s.waiters_list_ l).erase t))
    (hpc : s'.pc = update s.pc t (.unlockWaitersListAgain l)) : ListInv s' := by
  refine ⟨?_, fun x k => ?_, fun k => ?_⟩
  · rw [hlock]
    exact h.locked.keep fun x k => (place_iff (P := (·.locksList k)) hpc (by simp [hp]) x).mp
  · rw [hlist]
    by_cases hkl : k = l
    · subst hkl
      rw [update_self, (h.nodup k).mem_erase_iff, h.queued]
      by_cases hxt : x = t
      · simp [hxt, place_self hpc]
      · simp [hxt, place_other hpc hxt]
    · rw [update_of_ne hkl, h.queued]
      exact (place_iff (P := (·.queued k)) hpc (by simp [hp, hkl]) x).symm
  · rw [hlist]
    by_cases hkl : k = l
    · rw [hkl, update_self]
      exact (h.nodup l).erase t
    · rw [update_of_ne hkl]
      exact h.nodup k

theorem ListInv.does (h : ListInv s) (hdoes : Does s s' evs) : ListInv s' := by
  cases hdoes with
  | goes t q evs hgoes => exact h.keep rfl rfl rfl (fun k => (hgoes.tables k).2.2.2.1) fun k => (hgoes.tables k).2.2.2.2.1
  | sets t l q hsets hfree => exact h.keep rfl rfl rfl (fun k => (hsets.tables k).2.2.2.2.1) fun k => (hsets.tables k).2.2.2.2.2.1
  | locksList t l q hlocks hfree => exact h.lock hlocks hfree rfl rfl rfl
  | unlocksList t l q hunlocks => exact h.unlock hunlocks rfl rfl rfl
  | pushFront t l hp => exact h.pushFront hp rfl rfl rfl
  | remove t l hp => exact h.remove hp rfl rfl rfl
  | _ t l hp => exact h.keep rfl rfl rfl (fun k => by simp [hp]) fun k => by simp [hp]

/-! ### Lists of held locks -/

theorem HoldingInv.waitingOn_keep (h : HoldingInv s) (hwait : s'.lock_waiting_on_ = s.lock_waiting_on_) (hpc : s'.pc = update s.pc t q)
    (hq : q.waitsOn = (s.pc t).waitsOn) (x : ℕ) : s'.lock_waiting_on_ x = (s'.pc x).waitsOn := by
  rw [hwait, h.waitingOn]
  by_cases hxt : x = t
  · rw [hxt, place_self hpc, hq]
  · rw [place_other hpc hxt]

theorem HoldingInv.waitingOn_set (h : HoldingInv s) (hwait : s'.lock_waiting_on_ = update s.lock_waiting_on_ t q.waitsOn)
    (hpc : s'.pc = update s.pc t q) (x : ℕ) : s'.lock_waiting_on_ x = (s'.pc x).waitsOn := by
  rw [hwait]
  by_cases hxt : x = t
  · rw [hxt, place_self hpc, update_self]
  · rw [place_other hpc hxt, update_of_ne hxt, h.waitingOn]

theorem HoldingInv.keep (h : HoldingInv s) (hheld : s'.held_by_ = s.held_by_) (hlist : s'.holding_lock_list_ = s.holding_lock_list_)
    (hpc : s'.pc = update s.pc t q) (hunlisted : ∀ k, q.unlisted k ↔ (s.pc t).unlisted k)
    (hwait : ∀ x, s'.lock_waiting_on_ x = (s'.pc x).waitsOn) : HoldingInv s' := by
  refine ⟨fun x k => ?_, fun x => ?_, hwait⟩
  · rw [hlist, hheld, h.mem]
    exact and_congr_right' (not_congr (place_iff (P := (·.unlisted k)) hpc (hunlisted k) x).symm)
  · rw [hlist]
    exact h.nodup x

/-- A lock that is on no list becomes, or ceases to be, held. -/
theorem HoldingInv.setHolder (h : HoldingInv s) {o : Option ℕ} (hheld : s'.held_by_ = update s.held_by_ l o)
    (hlist : s'.holding_lock_list_ = s.holding_lock_list_) (hpc : s'.pc = update s.pc t q) (hnone : ∀ x, l ∉ s.holding_lock_list_ x)
    (ho : ∀ x, o = some x → x = t ∧ q.unlisted l) (hunlisted : ∀ k, k ≠ l → (q.unlisted k ↔ (s.pc t).unlisted k))
    (hwait : ∀ x, s'.lock_waiting_on_ x = (s'.pc x).waitsOn) : HoldingInv s' := by
  refine ⟨fun x k => ?_, fun x => ?_, hwait⟩
  · rw [hlist, hheld]
    by_cases hkl : k = l
    · subst hkl
      rw [update_self]
      refine iff_of_false (hnone x) fun ⟨hx, hnot⟩ => hnot ?_
      obtain ⟨rfl, hq⟩ := ho x hx
      rw [place_self hpc]
      exact hq
    · rw [update_of_ne hkl, h.mem]
      exact and_congr_right' (not_congr (place_iff (P := (·.unlisted k)) hpc (hunlisted k hkl) x).symm)
  · rw [hlist]
    exact h.nodup x

theorem HoldingInv.pushFront (h : HoldingInv s) (hl : LockInv s) (hp : s.pc t = .pushFrontToHoldingList l) (hheld : s'.held_by_ = s.held_by_)
    (hlist : s'.holding_lock_list_ = update s.holding_lock_list_ t (l :: s.holding_lock_list_ t)) (hpc : s'.pc = update s.pc t .idle)
    (hwait : s'.lock_waiting_on_ = s.lock_waiting_on_) : HoldingInv s' := by
  have hholds : s.held_by_ l = some t := hl.holds t l (by rw [hp]; rfl)
  refine ⟨fun x k => ?_, fun x => ?_, h.waitingOn_keep hwait hpc (by simp [hp])⟩
  · rw [hlist, hheld]
    by_cases hxt : x = t
    · subst hxt
      rw [update_self, List.mem_cons, h.mem, place_self hpc, hp]
      by_cases hkl : k = l
      · simp [hkl, hholds]
      · simp [hkl]
    · rw [update_of_ne hxt, place_other hpc hxt, h.mem]
  · rw [hlist]
    by_cases hxt : x = t
    · subst hxt
      rw [update_self]
      exact List.nodup_cons.mpr ⟨by simp [h.mem, hp], h.nodup x⟩
    · rw [update_of_ne hxt]
      exact h.nodup x

theorem HoldingInv.remove (h : HoldingInv s) (hp : s.pc t = .removeFromHoldingList l) (hheld : s'.held_by_ = s.held_by_)
    (hlist : s'.holding_lock_list_ = update s.holding_lock_list_ t ((s.holding_lock_list_ t).erase l))
    (hpc : s'.pc = update s.pc t (.clearHeldBy l)) (hwait : s'.lock_waiting_on_ = s.lock_waiting_on_) : HoldingInv s' := by
  refine ⟨fun x k => ?_, fun x => ?_, h.waitingOn_keep hwait hpc (by simp [hp])⟩
  · rw [hlist, hheld]
    by_cases hxt : x = t
    · subst hxt
      rw [update_self, (h.nodup x).mem_erase_iff, h.mem, place_self hpc, hp]
      simp [and_comm]
    · rw [update_of_ne hxt, place_other hpc hxt, h.mem]
  · rw [hlist]
    by_cases hxt : x = t
    · subst hxt
      rw [update_self]
      exact (h.nodup x).erase l
    · rw [update_of_ne hxt]
      exact h.nodup x

theorem HoldingInv.does (h : HoldingInv s) (hl : LockInv s) (hdoes : Does s s' evs) : HoldingInv s' := by
  cases hdoes with
  | goes t q evs hgoes =>
    exact h.keep rfl rfl rfl (fun k => (hgoes.tables k).2.2.1) (h.waitingOn_keep rfl rfl (hgoes.tables 0).2.2.2.2.2)
  | sets t l q hsets hfree =>
    exact h.keep rfl rfl rfl (fun k => (hsets.tables k).2.2.2.1) (h.waitingOn_keep rfl rfl (hsets.tables 0).2.2.2.2.2.2)
  | locksList t l q hlocks hfree =>
    exact h.keep rfl rfl rfl (fun k => (hlocks.tables k).2.2.2.1) (h.waitingOn_keep rfl rfl (hlocks.tables 0).2.2.2.2.2)
  | unlocksList t l q hunlocks =>
    exact h.keep rfl rfl rfl (fun k => (hunlocks.tables k).2.2.2.2.1) (h.waitingOn_keep rfl rfl (hunlocks.tables 0).2.2.2.2.2.2)
  | setWaitingOn t l hp => exact h.keep rfl rfl rfl (fun k => by simp [hp]) (h.waitingOn_set rfl rfl)
  | clearWaitingOn t l hp => exact h.keep rfl rfl rfl (fun k => by simp [hp]) (h.waitingOn_set rfl rfl)
  | setHeldBy t l hp =>
    have hfresh : s.held_by_ l = none := hl.fresh t l (by rw [hp]; rfl)
    refine h.setHolder rfl rfl rfl (fun x => ?_) (fun x hx => ⟨(Option.some.inj hx).symm, rfl⟩) (fun k hkl => by simp [hp, hkl])
      (h.waitingOn_keep rfl rfl (by simp [hp]))
    simp [h.mem, hfresh]
  | clearHeldBy t l hp =>
    have hholds : s.held_by_ l = some t := hl.holds t l (by rw [hp]; rfl)
    refine h.setHolder rfl rfl rfl (fun x => ?_) (fun x hx => by cases hx) (fun k hkl => by simp [hp, hkl])
      (h.waitingOn_keep rfl rfl (by simp [hp]))
    rw [h.mem, hholds, not_and, not_not]
    intro hx
    rw [← Option.some.inj hx, hp]
    rfl
  | pushFrontToHoldingList t l hp => exact h.pushFront hl hp rfl rfl rfl rfl
  | removeFromHoldingList t l hp => exact h.remove hp rfl rfl rfl rfl
  | _ t l hp => exact h.keep rfl rfl rfl (fun k => by simp [hp]) (h.waitingOn_keep rfl rfl (by simp [hp]))

end KPanic.SpinLocks

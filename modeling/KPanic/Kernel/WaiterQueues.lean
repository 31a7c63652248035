import KPanic.Kernel.LockInvariant

/-!
# The lists of waiters

A thread is on one list at most. It leaves the list once, by the hand of one thread, and that thread
wakes it up when it has fallen asleep.
-/

namespace KPanic.Locks

open Function
open Machine

variable {s s' s₀ : State} {t u v x p : ℕ} {l l' : LockId} {tr evs : List Event} {depth : ℕ}

/-- The thread waits until it is taken from the list, and woken up. -/
def Waits (s : State) (l : LockId) (t : ℕ) : Prop :=
  (s.pc t).waitsOn = some l ∧ ((s.pc t).isAsleep = true → s.state_ t = .Sleeping)

structure Queues (s : State) : Prop where
  waits : ∀ {t l}, t ∈ s.waiters_list_ l → Waits s l t
  nodup : ∀ l, (s.waiters_list_ l).Nodup
  popped : ∀ {u l p}, (s.pc u).wakes l p → Waits s l p ∧ p ∉ s.waiters_list_ l
  popper : ∀ {u v l p}, (s.pc u).wakes l p → (s.pc v).wakes l p → u = v
  listed : ∀ {t l}, (s.pc t).waitsOn = some l →
    t ∈ s.waiters_list_ l ∨ (∃ u, (s.pc u).wakes l t) ∨ (s.pc t).isAsleep = true ∧ s.state_ t = .Running
  asleep : ∀ {t}, s.state_ t = .Sleeping → (s.pc t).isAsleep = true

theorem Waits.lock_unique (h : Waits s l t) (h' : Waits s l' t) : l = l' := by
  have heq := h.1.symm.trans h'.1
  exact Option.some.inj heq

/-! ### Calls -/

theorem Queues.call (h : Queues s) (hidle : s.pc t = .idle) (f : Call) : Queues (s.goto t f.start) := by
  obtain ⟨-, -, -, hwaits, hasleep, hwakes⟩ := start_tables f
  have hpc : (s.goto t f.start).pc = update s.pc t f.start := rfl
  have hne : ∀ {x l}, Waits s l x → x ≠ t := by
    rintro x l hx rfl
    rw [Waits, hidle] at hx
    cases hx.1
  have hother : ∀ {x}, x ≠ t → (s.goto t f.start).pc x = s.pc x := fun hx => update_of_ne hx _ _
  have hold : ∀ {x l p}, ((s.goto t f.start).pc x).wakes l p → (s.pc x).wakes l p := fun {x l p} hx =>
    table_keep (P := (·.wakes l p)) hpc (fun hw => absurd hw (hwakes l p)) hx
  have hstays : ∀ {x l}, Waits s l x → Waits (s.goto t f.start) l x := fun hx => by
    rw [Waits, hother (hne hx)]
    exact hx
  refine ⟨fun hx => hstays (h.waits hx), h.nodup, fun hx => ?_, fun hx hy => h.popper (hold hx) (hold hy), fun {x l} hx => ?_,
    fun {x} hx => ?_⟩
  · obtain ⟨hw, hnot⟩ := h.popped (hold hx)
    exact ⟨hstays hw, hnot⟩
  · have hxt : x ≠ t := by
      rintro rfl
      rw [hpc, update_self, hwaits] at hx
      cases hx
    rw [hother hxt] at hx ⊢
    obtain hmem | ⟨u, hu⟩ | hwoken := h.listed hx
    · exact .inl hmem
    · refine .inr (.inl ⟨u, ?_⟩)
      have hut : u ≠ t := by
        rintro rfl
        rw [hidle] at hu
        exact hu
      rw [hother hut]
      exact hu
    · exact .inr (.inr hwoken)
  · have hxa := h.asleep hx
    have hxt : x ≠ t := by
      rintro rfl
      rw [hidle] at hxa
      cases hxa
    rw [hother hxt]
    exact hxa

/-! ### Steps -/

theorem Waits.perform (h : Waits s l x) (ho : (s.pc t).op ≠ .stay) (hawake : s.state_ t = .Running)
    (hwake : ∀ next, (s.pc t).op ≠ .wake x next) : Waits (s.perform t (s.pc t).op).1 l x := by
  have hwaits := waitsOn_next (i := s.pc t) (s.busy (s.pc t).op) (s.popped (s.pc t).op)
  have hasleep := isAsleep_next (i := s.pc t) (s.busy (s.pc t).op) (s.popped (s.pc t).op)
  have hplace := waits_of_op (i := s.pc t)
  have hself := perform_pc_self (s := s) (t := t) ho
  have hstate := perform_state (s := s) (t := t) (o := (s.pc t).op)
  rw [Waits]
  by_cases hxt : x = t
  · subst hxt
    rw [hself, hwaits, hasleep, hstate]
    have hnot : (s.pc x).isAsleep = false := by
      cases ha : (s.pc x).isAsleep with
      | false => rfl
      | true =>
        have hsleeping := h.2 ha
        rw [hawake] at hsleeping
        cases hsleeping
    have hon := h.1
    cases hop : (s.pc x).op with
    | pushFront l' next =>
      rw [hop] at hplace
      rw [show (s.pc x).waitsOn = none from hplace] at hon
      cases hon
    | resume next =>
      rw [hop] at hplace
      rw [show (s.pc x).isAsleep = true from hplace] at hnot
      cases hnot
    | sleep next => exact ⟨hon, fun _ => update_self _ _ _⟩
    | _ => exact ⟨hon, fun hf => absurd hf Bool.false_ne_true⟩
  · rw [perform_pc_of_ne hxt, hstate]
    refine ⟨h.1, fun ha => ?_⟩
    cases hop : (s.pc t).op with
    | sleep next => exact (update_of_ne hxt _ _).trans (h.2 ha)
    | wake p next =>
      have hxp : x ≠ p := by
        rintro rfl
        exact hwake next hop
      exact (update_of_ne hxp _ _).trans (h.2 ha)
    | _ => exact h.2 ha

/-- A thread in the list has not been taken from it. -/
theorem Queues.not_wake (h : Queues s) (hx : x ∈ s.waiters_list_ l) (next : Pc) : (s.pc t).op ≠ .wake x next := by
  intro hop
  have hplace := waits_of_op (i := s.pc t)
  rw [hop] at hplace
  obtain ⟨l', hwakes⟩ := hplace
  obtain ⟨hwaits, hnot⟩ := h.popped ((hwakes l' x).mpr ⟨rfl, rfl⟩)
  obtain rfl := (h.waits hx).lock_unique hwaits
  exact hnot hx

/-- The last thread is not in the rest. -/
theorem not_mem_dropLast {xs : List ℕ} (hnodup : xs.Nodup) (h : xs.getLast? = some p) : p ∉ xs.dropLast := by
  obtain ⟨ys, rfl⟩ := List.getLast?_eq_some_iff.mp h
  rw [List.dropLast_concat]
  intro hmem
  exact (List.nodup_append.mp hnodup).2.2 p hmem p (List.mem_singleton.mpr rfl) rfl

/-- Who is on a list after a step. -/
theorem mem_waiters_perform (hx : x ∈ (s.perform t (s.pc t).op).1.waiters_list_ l) :
    x ∈ s.waiters_list_ l ∨ x = t ∧ ∃ next, (s.pc t).op = .pushFront l next := by
  rw [perform_waiters_list] at hx
  cases hop : (s.pc t).op with
  | pushFront l' next =>
    rw [hop] at hx
    dsimp only at hx
    by_cases hl : l = l'
    · subst hl
      rw [update_self] at hx
      obtain rfl | hx := List.mem_cons.mp hx
      · exact .inr ⟨rfl, next, rfl⟩
      · exact .inl hx
    · rw [update_of_ne hl] at hx
      exact .inl hx
  | popBack l' next =>
    rw [hop] at hx
    dsimp only at hx
    by_cases hl : l = l'
    · subst hl
      rw [update_self] at hx
      exact .inl (List.dropLast_subset _ hx)
    · rw [update_of_ne hl] at hx
      exact .inl hx
  | _ =>
    rw [hop] at hx
    exact .inl hx

theorem Queues.waits_perform (h : Queues s) (ho : (s.pc t).op ≠ .stay) (hawake : s.state_ t = .Running)
    (hx : x ∈ (s.perform t (s.pc t).op).1.waiters_list_ l) : Waits (s.perform t (s.pc t).op).1 l x := by
  obtain hx | ⟨rfl, next, hop⟩ := mem_waiters_perform hx
  · exact (h.waits hx).perform ho hawake (h.not_wake hx)
  · have hwaits := waitsOn_next (i := s.pc x) (s.busy (s.pc x).op) (s.popped (s.pc x).op)
    have hasleep := isAsleep_next (i := s.pc x) (s.busy (s.pc x).op) (s.popped (s.pc x).op)
    rw [Waits, perform_pc_self ho, hwaits, hasleep, hop]
    exact ⟨rfl, fun hf => absurd hf Bool.false_ne_true⟩

theorem Queues.nodup_perform (h : Queues s) (l : LockId) : ((s.perform t (s.pc t).op).1.waiters_list_ l).Nodup := by
  have hplace := waits_of_op (i := s.pc t)
  rw [perform_waiters_list]
  cases hop : (s.pc t).op with
  | pushFront l' next =>
    rw [hop] at hplace
    dsimp only
    by_cases hl : l = l'
    · subst hl
      rw [update_self]
      refine List.nodup_cons.mpr ⟨fun hmem => ?_, h.nodup l⟩
      have hon := (h.waits hmem).1
      rw [show (s.pc t).waitsOn = none from hplace] at hon
      cases hon
    · rw [update_of_ne hl]
      exact h.nodup l
  | popBack l' next =>
    dsimp only
    by_cases hl : l = l'
    · subst hl
      rw [update_self]
      exact (h.nodup l).sublist (List.dropLast_sublist _)
    · rw [update_of_ne hl]
      exact h.nodup l
  | _ => exact h.nodup l

/-- Who is taken from a list by a step. -/
theorem wakes_perform (ho : (s.pc t).op ≠ .stay) (hu : ((s.perform t (s.pc t).op).1.pc u).wakes l p) :
    (s.pc u).wakes l p ∧ (u = t → ∀ next, (s.pc t).op ≠ .wake p next) ∨
      u = t ∧ ∃ next, (s.pc t).op = .popBack l next ∧ (s.waiters_list_ l).getLast? = some p := by
  have hnext := wakes_next (i := s.pc t) (l := l) (p := p) (s.busy (s.pc t).op) (s.popped (s.pc t).op)
  obtain ⟨rfl, hat⟩ | ⟨hut, hat⟩ := table_update (P := (·.wakes l p)) (perform_pc ho) hu
  · have hnow := hnext.mp hat
    cases hop : (s.pc u).op with
    | popBack l' next =>
      rw [hop] at hnow
      obtain ⟨rfl, hp⟩ := hnow
      exact .inr ⟨rfl, next, rfl, hp⟩
    | wake q next =>
      rw [hop] at hnow
      exact hnow.elim
    | _ =>
      rw [hop] at hnow
      exact .inl ⟨hnow, by simp⟩
  · exact .inl ⟨hat, fun heq => absurd heq hut⟩

theorem Queues.popped_perform (h : Queues s) (ho : (s.pc t).op ≠ .stay) (hawake : s.state_ t = .Running)
    (hu : ((s.perform t (s.pc t).op).1.pc u).wakes l p) :
    Waits (s.perform t (s.pc t).op).1 l p ∧ p ∉ (s.perform t (s.pc t).op).1.waiters_list_ l := by
  obtain ⟨hold, hown⟩ | ⟨rfl, next, hop, hlast⟩ := wakes_perform ho hu
  · obtain ⟨hwaits, hnot⟩ := h.popped hold
    refine ⟨hwaits.perform ho hawake fun next hop => ?_, fun hmem => ?_⟩
    · -- Only the thread that has taken `p` wakes it up.
      have hplace := waits_of_op (i := s.pc t)
      rw [hop] at hplace
      obtain ⟨l', hwakes⟩ := hplace
      replace hwakes := (hwakes l' p).mpr ⟨rfl, rfl⟩
      obtain rfl := hwaits.lock_unique (h.popped hwakes).1
      exact hown (h.popper hold hwakes) next hop
    · obtain hmem | ⟨rfl, next, hop⟩ := mem_waiters_perform hmem
      · exact hnot hmem
      · have hplace := waits_of_op (i := s.pc p)
        rw [hop] at hplace
        have hon := hwaits.1
        rw [show (s.pc p).waitsOn = none from hplace] at hon
        cases hon
  · have hmem := List.mem_of_getLast? hlast
    refine ⟨(h.waits hmem).perform ho hawake (h.not_wake hmem), ?_⟩
    rw [perform_waiters_list, hop]
    dsimp only
    rw [update_self]
    exact not_mem_dropLast (h.nodup l) hlast

theorem Queues.popper_perform (h : Queues s) (ho : (s.pc t).op ≠ .stay)
    (hu : ((s.perform t (s.pc t).op).1.pc u).wakes l p) (hv : ((s.perform t (s.pc t).op).1.pc v).wakes l p) : u = v := by
  obtain ⟨hold, -⟩ | ⟨rfl, next, hop, hlast⟩ := wakes_perform ho hu
  · obtain ⟨hold', -⟩ | ⟨rfl, next, hop, hlast⟩ := wakes_perform ho hv
    · exact h.popper hold hold'
    · exact absurd (List.mem_of_getLast? hlast) (h.popped hold).2
  · obtain ⟨hold', -⟩ | ⟨rfl, -⟩ := wakes_perform ho hv
    · exact absurd (List.mem_of_getLast? hlast) (h.popped hold').2
    · rfl

/-- Who stays on a list. -/
theorem mem_waiters_stays (hx : x ∈ s.waiters_list_ l) :
    x ∈ (s.perform t (s.pc t).op).1.waiters_list_ l ∨ ∃ next, (s.pc t).op = .popBack l next ∧
      (s.waiters_list_ l).getLast? = some x := by
  rw [perform_waiters_list]
  cases hop : (s.pc t).op with
  | pushFront l' next =>
    dsimp only
    by_cases hl : l = l'
    · subst hl
      rw [update_self]
      exact .inl (List.mem_cons_of_mem _ hx)
    · rw [update_of_ne hl]
      exact .inl hx
  | popBack l' next =>
    dsimp only
    by_cases hl : l = l'
    · subst hl
      rw [update_self]
      obtain ⟨ys, y, heq⟩ := List.eq_nil_or_concat (s.waiters_list_ l) |>.resolve_left (List.ne_nil_of_mem hx)
      rw [List.concat_eq_append] at heq
      rw [heq, List.dropLast_concat]
      rw [heq] at hx
      obtain hx | hx := List.mem_append.mp hx
      · exact .inl hx
      · rw [List.mem_singleton.mp hx]
        exact .inr ⟨next, rfl, List.getLast?_concat⟩
    · rw [update_of_ne hl]
      exact .inl hx
  | _ => exact .inl hx

/-- Who stays a waker. -/
theorem wakes_stays (ho : (s.pc t).op ≠ .stay) (hu : (s.pc u).wakes l p) :
    ((s.perform t (s.pc t).op).1.pc u).wakes l p ∨ u = t ∧ ∃ q next, (s.pc t).op = .wake q next := by
  by_cases hut : u = t
  · subst hut
    have hnext := wakes_next (i := s.pc u) (l := l) (p := p) (s.busy (s.pc u).op) (s.popped (s.pc u).op)
    have hplace := waits_of_op (i := s.pc u)
    rw [perform_pc_self ho, hnext]
    cases hop : (s.pc u).op with
    | popBack l' next =>
      rw [hop] at hplace
      exact absurd hu (hplace l p)
    | wake q next => exact .inr ⟨rfl, q, next, rfl⟩
    | _ => exact .inl hu
  · rw [perform_pc_of_ne hut]
    exact .inl hu

theorem Queues.listed_perform (h : Queues s) (ho : (s.pc t).op ≠ .stay) (hawake : s.state_ t = .Running)
    (hstops : s.stops depth t (s.pc t).op = none) (hx : ((s.perform t (s.pc t).op).1.pc x).waitsOn = some l) :
    x ∈ (s.perform t (s.pc t).op).1.waiters_list_ l ∨ (∃ u, ((s.perform t (s.pc t).op).1.pc u).wakes l x) ∨
      ((s.perform t (s.pc t).op).1.pc x).isAsleep = true ∧ (s.perform t (s.pc t).op).1.state_ x = .Running := by
  have hwaits := waitsOn_next (i := s.pc t) (s.busy (s.pc t).op) (s.popped (s.pc t).op)
  have hplace := waits_of_op (i := s.pc t)
  have hstate := perform_state (s := s) (t := t) (o := (s.pc t).op)
  -- A thread that was on a list is still on it, or has just been taken from it.
  have hkeep : x ∈ s.waiters_list_ l → x ∈ (s.perform t (s.pc t).op).1.waiters_list_ l ∨
      ∃ u, ((s.perform t (s.pc t).op).1.pc u).wakes l x := by
    intro hmem
    obtain hmem | ⟨next, hop, hlast⟩ := mem_waiters_stays (t := t) hmem
    · exact .inl hmem
    · refine .inr ⟨t, ?_⟩
      have hnext := wakes_next (i := s.pc t) (l := l) (p := x) (s.busy (s.pc t).op) (s.popped (s.pc t).op)
      rw [perform_pc_self ho, hnext, hop]
      exact ⟨rfl, hlast⟩
  by_cases hxt : x = t
  · subst hxt
    rw [perform_pc_self ho, hwaits] at hx
    have hself : (s.pc x).isAsleep = false := by
      cases ha : (s.pc x).isAsleep with
      | false => rfl
      | true =>
        obtain ⟨next, hop⟩ := op_of_isAsleep ha
        rw [hop] at hx
        cases hx
    have hold : (s.pc x).waitsOn = some l → x ∈ (s.perform x (s.pc x).op).1.waiters_list_ l ∨
        ∃ u, ((s.perform x (s.pc x).op).1.pc u).wakes l x := by
      intro hon
      obtain hmem | ⟨u, hu⟩ | ⟨ha, -⟩ := h.listed hon
      · exact hkeep hmem
      · obtain hu' | ⟨rfl, -⟩ := wakes_stays ho hu
        · exact .inr ⟨u, hu'⟩
        · exact absurd hu (not_wakes_of_waitsOn hon)
      · rw [hself] at ha
        cases ha
    cases hop : (s.pc x).op with
    | pushFront l' next =>
      rw [hop] at hx
      cases hx
      refine .inl ?_
      rw [perform_waiters_list]
      dsimp only
      rw [update_self]
      exact List.mem_cons_self
    | resume next =>
      rw [hop] at hx
      cases hx
    | _ =>
      rw [hop] at hx hold
      exact (hold hx).imp_right .inl
  · rw [perform_pc_of_ne hxt] at hx
    obtain hmem | ⟨u, hu⟩ | ⟨ha, hrunning⟩ := h.listed hx
    · exact (hkeep hmem).imp_right .inl
    · obtain hu' | ⟨rfl, q, next, hop⟩ := wakes_stays ho hu
      · exact .inr (.inl ⟨u, hu'⟩)
      · rw [hop] at hplace hstops
        obtain ⟨l', hwakes⟩ := hplace
        obtain ⟨-, rfl⟩ := (hwakes l x).mp hu
        have hsleeping : s.state_ x = .Sleeping := by simpa [State.stops] using hstops
        refine .inr (.inr ?_)
        rw [perform_pc_of_ne hxt, hstate, hop]
        exact ⟨h.asleep hsleeping, update_self _ _ _⟩
    · refine .inr (.inr ?_)
      rw [perform_pc_of_ne hxt, hstate]
      refine ⟨ha, ?_⟩
      cases hop : (s.pc t).op with
      | sleep next => exact (update_of_ne hxt _ _).trans hrunning
      | wake q next =>
        by_cases hxq : x = q
        · subst hxq
          exact update_self _ _ _
        · exact (update_of_ne hxq _ _).trans hrunning
      | _ => exact hrunning

theorem Queues.asleep_perform (h : Queues s) (ho : (s.pc t).op ≠ .stay) (hawake : s.state_ t = .Running)
    (hx : (s.perform t (s.pc t).op).1.state_ x = .Sleeping) : ((s.perform t (s.pc t).op).1.pc x).isAsleep = true := by
  have hasleep := isAsleep_next (i := s.pc t) (s.busy (s.pc t).op) (s.popped (s.pc t).op)
  rw [perform_state] at hx
  by_cases hxt : x = t
  · subst hxt
    rw [perform_pc_self ho, hasleep]
    cases hop : (s.pc x).op with
    | sleep next => rfl
    | wake q next =>
      rw [hop] at hx
      dsimp only at hx
      by_cases hxq : x = q
      · rw [hxq, update_self] at hx
        cases hx
      · rw [update_of_ne hxq, hawake] at hx
        cases hx
    | _ =>
      rw [hop] at hx
      rw [show s.state_ x = .Sleeping from hx] at hawake
      cases hawake
  · rw [perform_pc_of_ne hxt]
    cases hop : (s.pc t).op with
    | sleep next =>
      rw [hop] at hx
      dsimp only at hx
      rw [update_of_ne hxt] at hx
      exact h.asleep hx
    | wake q next =>
      rw [hop] at hx
      dsimp only at hx
      by_cases hxq : x = q
      · rw [hxq, update_self] at hx
        cases hx
      · rw [update_of_ne hxq] at hx
        exact h.asleep hx
    | _ =>
      rw [hop] at hx
      exact h.asleep hx

theorem Queues.step (h : Queues s) {act : Act} (hs : Locks.step s act = .ok (s', evs)) : Queues s' := by
  obtain ⟨t, f, -, hidle, rfl, -⟩ | ⟨t, depth, -, hawake, hstops, ho, heq⟩ := step_cases hs
  · exact h.call hidle f
  · rw [show s' = (s.perform t (s.pc t).op).1 from congrArg Prod.fst heq]
    exact ⟨h.waits_perform ho hawake, h.nodup_perform, h.popped_perform ho hawake, h.popper_perform ho,
      h.listed_perform ho hawake hstops, h.asleep_perform ho hawake⟩

theorem Boot.queues (h : Boot s) : Queues s := by
  refine ⟨fun {t l} ht => ?_, fun l => ?_, fun {u l p} hu => ?_, fun {u v l p} hu => ?_, fun {t l} ht => ?_, fun {t} ht => ?_⟩
  all_goals simp [h.pc, h.waiters_list_, h.state_] at *

end KPanic.Locks

import KPanic.Kernel.LockDeadlock
import KPanic.Kernel.WaitersList

/-!
# The links in runs of `Mutex` and `Condition`

`Locks` has the lists of waiters and of held mutexes as lists. Every step that changes one of them is a call
that `LockLists` allows, so the links in the threads and in the locks say the same in every run.
-/

namespace KPanic.Locks

open Function
open Machine
open LockLists (Represents)

variable {s s' s₀ : State} {t m : ℕ} {tr evs : List Event}

/-- The lists of a state. -/
def State.queues (s : State) : LockLists.Queues ℕ LockId where
  waiters := s.waiters_list_
  holding t := (s.holding_lock_list_ t).map .mutex

theorem setsMutex_of_listed {i : Pc} (h : i.listed m) : i.setsMutex m := by
  cases i with
  | acquire k p =>
    cases p with
    | setHeldBy => exact h
    | _ => exact h.elim
  | _ => exact h.elim

/-- Whoever has a mutex on his list has set it. -/
theorem Holds.owns (h : Holds s) (hm : m ∈ s.holding_lock_list_ t) : (s.pc t).setsMutex m ∨ s.held_by_ m = some t := by
  obtain ⟨hheld, -⟩ | hlisted := (h.mem t m).mp hm
  · exact .inr hheld
  · exact .inl (setsMutex_of_listed hlisted)

theorem mem_queues_holding {lock : LockId} : lock ∈ s.queues.holding t ↔ ∃ m ∈ s.holding_lock_list_ t, .mutex m = lock :=
  List.mem_map

theorem map_update_holding (f : ℕ → List ℕ) (t : ℕ) (l : List ℕ) :
    (fun u => (update f t l u).map LockId.mutex) = update (fun u => (f u).map .mutex) t (l.map .mutex) := by
  funext u
  by_cases hu : u = t
  · rw [hu, update_self, update_self]
  · rw [update_of_ne hu, update_of_ne hu]

/-- The call that a step makes, if any. -/
theorem call_of_perform (hg : Guards s) (hq : Queues s) (hh : Holds s) :
    ∃ cs, s.queues.AllAllowed cs ∧ (s.queues.calls cs).2 = (s.perform t (s.pc t).op).1.queues := by
  have hplace := waits_of_op (i := s.pc t)
  have hsets := setsMutex_of_op (i := s.pc t)
  have hholds := holds_of_op (i := s.pc t)
  have hlisted := holding_of_op (i := s.pc t)
  have hqueues : (s.perform t (s.pc t).op).1.queues = ⟨(s.perform t (s.pc t).op).1.waiters_list_,
      fun u => ((s.perform t (s.pc t).op).1.holding_lock_list_ u).map .mutex⟩ := rfl
  rw [hqueues, perform_waiters_list, perform_holding]
  cases hop : (s.pc t).op with
  | pushFront l next =>
    rw [hop] at hplace
    refine ⟨[.pushFront (some t) l], ⟨⟨t, rfl, fun lock hmem => ?_⟩, trivial⟩, rfl⟩
    have hwaits := (hq.waits hmem).1
    rw [show (s.pc t).waitsOn = none from hplace] at hwaits
    cases hwaits
  | popBack l next => exact ⟨[.popBack (some t) l], ⟨trivial, trivial⟩, rfl⟩
  | pushFrontToHoldingList m next =>
    rw [hop] at hsets hlisted
    refine ⟨[.hold (some t) (.mutex m)], ⟨fun u hu => ?_, trivial⟩, ?_⟩
    · obtain ⟨k, hk, heq⟩ := mem_queues_holding.mp hu
      obtain rfl := LockId.mutex.inj heq
      obtain rfl := hg.owner (hh.owns hk) (.inl hsets)
      obtain ⟨hheld, -⟩ | hin := (hh.mem u k).mp hk
      · rw [hg.fresh hsets] at hheld
        cases hheld
      · exact (hlisted k).1 hin
    · dsimp only
      rw [map_update_holding]
      rfl
  | removeFromHoldingList m next =>
    rw [hop] at hholds
    refine ⟨[.release (some t) (.mutex m)], ⟨fun u hu => ?_, trivial⟩, ?_⟩
    · obtain ⟨k, hk, heq⟩ := mem_queues_holding.mp hu
      obtain rfl := LockId.mutex.inj heq
      exact hg.owner (hh.owns hk) (.inr (hg.holds hholds))
    · dsimp only
      rw [map_update_holding, List.map_erase fun _ _ => LockId.mutex.inj]
      rfl
  | _ => exact ⟨[], trivial, rfl⟩

/-- In every run the links of threads and locks represent the lists, and no loop over them is endless. -/
theorem runs_represents (hs₀ : Boot s₀) (h : Runs step (fun _ _ => True) s₀ tr s) :
    ∃ cs n, ∀ passes ≥ n, ∃ ts links, (LockLists.State.new ℕ LockId).calls passes cs = .ok (ts, links) ∧
      Represents links s.queues := by
  have hcalls : Guards s ∧ Queues s ∧ Holds s ∧ ∃ cs, s₀.queues.AllAllowed cs ∧ (s₀.queues.calls cs).2 = s.queues := by
    refine h.invariant (I := fun _ s => Guards s ∧ Queues s ∧ Holds s ∧
      ∃ cs, s₀.queues.AllAllowed cs ∧ (s₀.queues.calls cs).2 = s.queues)
      ⟨hs₀.guards, hs₀.queues, hs₀.holds, [], trivial, rfl⟩ ?_
    rintro _ s act s' evs ⟨hg, hq, hh, cs, hcs, hcalls⟩ - hs
    refine ⟨hg.step hs, hq.step hs, hh.step hg hs, ?_⟩
    obtain ⟨t, f, -, -, rfl, -⟩ | ⟨t, depth, -, -, -, -, heq⟩ := step_cases hs
    · exact ⟨cs, hcs, hcalls⟩
    · obtain rfl : s' = (s.perform t (s.pc t).op).1 := congrArg Prod.fst heq
      obtain ⟨ds, hds, hnext⟩ := call_of_perform (t := t) hg hq hh
      refine ⟨cs ++ ds, LockLists.Queues.allAllowed_append.mpr ⟨hcs, hcalls ▸ hds⟩, ?_⟩
      rw [LockLists.Queues.calls_append, hcalls, hnext]
  obtain ⟨-, -, -, cs, hcs, hqueues⟩ := hcalls
  have hempty : s₀.queues = ⟨fun _ => [], fun _ => []⟩ := by
    unfold State.queues
    congr 1
    · funext l
      exact hs₀.waiters_list_ l
    · funext t
      rw [hs₀.holding_lock_list_]
      rfl
  rw [hempty] at hcs hqueues
  refine ⟨cs, LockLists.Queues.longest ⟨fun _ => [], fun _ => []⟩ cs + 1, fun passes hpasses => ?_⟩
  obtain ⟨links, hlinks, R⟩ := LockLists.calls_spec (LockLists.represents_new ℕ LockId) hcs (Nat.lt_of_succ_le hpasses)
  exact ⟨_, links, hlinks, hqueues ▸ R⟩

end KPanic.Locks

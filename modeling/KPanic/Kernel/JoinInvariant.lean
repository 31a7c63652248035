import KPanic.Kernel.ThreadEffects
import KPanic.Lib.PartialMap
import KPanic.Lib.WaitGraph

/-!
# The invariant of the joining threads

`Wf` relates `waiting_list_` to what the threads are doing: an entry for `t` belongs to the one
thread that is in `cond->wait()` for `t`, and that thread is asleep exactly as long as it is on
the condition's list.
-/

namespace KPanic.Threads

open Function
open Relation (TransGen)

namespace UserProcess

def state (s : UserProcess) (t : Tid) : Option ThreadState := (s.thread_list_ t).map (·.state_)

/-- `x` sleeps in `joinThread(t)`. -/
def WaitsOn (s : UserProcess) (x t : Tid) : Prop := ∃ w, s.waiting_list_ t = some w ∧ w.waiter_ = x

structure Wf (s : UserProcess) : Prop where
  fresh : ∀ {t}, s.next_tid_ ≤ t → s.state t = none
  alive : ∀ {t}, s.pc t ≠ .gone → s.state t = some .Running ∨ s.state t = some .Sleeping
  dead : ∀ {t}, s.pc t = .gone → s.state t = none ∨ s.state t = some .ToBeDestroyed
  waiter : ∀ {t w}, s.waiting_list_ t = some w → ∃ c, s.pc w.waiter_ = .wait c t
  waits : ∀ {x c t}, s.pc x = .wait c t → s.WaitsOn x t
  slept : ∀ {t w}, s.waiting_list_ t = some w →
    (w.cond_.waiters_list_ = [w.waiter_] ∧ s.state w.waiter_ = some .Sleeping) ∨
    (w.cond_.waiters_list_ = [] ∧ s.state w.waiter_ = some .Running)
  asleep : ∀ {t}, s.state t = some .Sleeping → ∃ c tid, s.pc t = .wait c tid
  targets : ∀ {t}, s.waiting_list_ t ≠ none → t < s.next_tid_
  values : ∀ {t}, s.ret_values_ t ≠ none → t < s.next_tid_
  acyclic : WaitGraph.Acyclic s.WaitsOn

@[simp] theorem alertWaiter_next_tid_ (s : UserProcess) (tid : Tid) :
    (s.alertWaiter tid).next_tid_ = s.next_tid_ := by
  unfold alertWaiter signal
  split
  · split <;> rfl
  · rfl

@[simp] theorem alertWaiter_pc (s : UserProcess) (tid : Tid) :
    (s.alertWaiter tid).pc = s.pc := by
  unfold alertWaiter signal
  split
  · split <;> rfl
  · rfl

@[simp] theorem alertWaiter_ret_values_ (s : UserProcess) (tid : Tid) :
    (s.alertWaiter tid).ret_values_ = s.ret_values_ := by
  unfold alertWaiter signal
  split
  · split <;> rfl
  · rfl

theorem dropLast_of_nil {w : WaitingInfo} (h : w.cond_.waiters_list_ = []) :
    { w with cond_ := ⟨w.cond_.waiters_list_.dropLast⟩ } = w := by
  obtain ⟨x, ⟨l⟩⟩ := w
  have hl : l = [] := h
  rw [hl]
  rfl

/-- The entry stays; its condition loses the thread that is woken. -/
theorem alertWaiter_waiting (s : UserProcess) (tid u : Tid) :
    (s.alertWaiter tid).waiting_list_ u = if u = tid then
      (s.waiting_list_ tid).map fun w => { w with cond_ := ⟨w.cond_.waiters_list_.dropLast⟩ }
    else s.waiting_list_ u := by
  unfold alertWaiter
  cases hw : s.waiting_list_ tid with
  | none =>
    by_cases hu : u = tid
    · simp [hu, hw]
    · simp [hu]
  | some w =>
    unfold signal
    cases hlast : w.cond_.waiters_list_.getLast? with
    | none =>
      have hnil := List.getLast?_eq_none_iff.mp hlast
      by_cases hu : u = tid
      · simp [hu, hw, hlast, dropLast_of_nil hnil]
      · simp [hu, hlast]
    | some x => simp [hlast, update_apply]

/-- Only the woken thread changes its state. -/
theorem alertWaiter_state {s : UserProcess} {tid : Tid} {w : WaitingInfo} {o : Option Tid}
    (hw : s.waiting_list_ tid = some w) (ho : w.cond_.waiters_list_.getLast? = o) (u : Tid) :
    (s.alertWaiter tid).state u = if o = some u then (s.state u).map fun _ => .Running
    else s.state u := by
  unfold alertWaiter signal
  rw [hw]
  simp only [ho]
  cases o with
  | none => simp
  | some x =>
    by_cases hx : x = u
    · simp [state, setState, modifyThread, hx]
      cases s.thread_list_ u <;> rfl
    · have hu : u ≠ x := fun h => hx h.symm
      simp [state, setState, modifyThread, hx, hu]

variable {s : UserProcess}

variable {s s' : UserProcess}

/-- A thread waits for at most one other. -/
theorem Wf.waitsOn_unique (h : Wf s) {x t t' : Tid} (ht : s.WaitsOn x t) (ht' : s.WaitsOn x t') :
    t = t' := by
  obtain ⟨w, hw, rfl⟩ := ht
  obtain ⟨w', hw', heq⟩ := ht'
  obtain ⟨c, hc⟩ := h.waiter hw
  obtain ⟨c', hc'⟩ := h.waiter hw'
  rw [heq, hc] at hc'
  injection hc'

theorem Wf.lt_next (h : Wf s) {t : Tid} (ht : s.state t ≠ none) : t < s.next_tid_ := by
  by_contra hle
  exact ht (h.fresh (Nat.not_lt.mp hle))

/-- What the invariant reads is unchanged, apart from values that are taken and moves of `pc`
that enter or leave neither `wait` nor `gone`. -/
theorem Wf.congr (h : Wf s) (hnext : s'.next_tid_ = s.next_tid_)
    (hstate : ∀ u, s'.state u = s.state u) (hwl : s'.waiting_list_ = s.waiting_list_)
    (hret : ∀ {u}, s'.ret_values_ u ≠ none → u < s.next_tid_)
    (hwait : ∀ {x c u}, s'.pc x = .wait c u ↔ s.pc x = .wait c u)
    (hgone : ∀ {x}, s'.pc x = .gone ↔ s.pc x = .gone) : Wf s' where
  fresh hu := by
    rw [hstate]
    exact h.fresh (by rwa [← hnext])
  alive hu := by
    rw [hstate]
    exact h.alive (mt hgone.mpr hu)
  dead hu := by
    rw [hstate]
    exact h.dead (hgone.mp hu)
  waiter hw := by
    rw [hwl] at hw
    obtain ⟨c, hc⟩ := h.waiter hw
    exact ⟨c, hwait.mpr hc⟩
  waits hx := by
    have := h.waits (hwait.mp hx)
    rwa [WaitsOn, hwl]
  slept hw := by
    rw [hwl] at hw
    rw [hstate]
    exact h.slept hw
  asleep hu := by
    rw [hstate] at hu
    obtain ⟨c, tid, hc⟩ := h.asleep hu
    exact ⟨c, tid, hwait.mpr hc⟩
  targets hu := by
    rw [hwl] at hu
    rw [hnext]
    exact h.targets hu
  values hu := by
    rw [hnext]
    exact hret hu
  acyclic := h.acyclic.mono fun hxy => by rwa [WaitsOn, hwl] at hxy

theorem Pc.Local.ne_wait {p : Pc} (h : p.Local) (c : Caller) (t : Tid) : p ≠ .wait c t := by
  rintro rfl
  exact h

theorem Pc.Local.ne_gone {p : Pc} (h : p.Local) : p ≠ .gone := by
  rintro rfl
  exact h

theorem update_pc_iff {t x : Tid} {p q : Pc} (hold : s.pc t ≠ q) (hnew : p ≠ q) :
    update s.pc t p x = q ↔ s.pc x = q := by
  by_cases hx : x = t
  · subst hx
    simp [hold, hnew]
  · rw [update_of_ne hx]

theorem Wf.goto (h : Wf s) {id t : Tid} {f : UserThread → UserThread} {p : Pc} {b : Bool}
    {tids : List Tid} (hf : KeepsState f) (hold : (s.pc t).Local) (hnew : p.Local) :
    Wf { s with
        thread_list_ := update s.thread_list_ id ((s.thread_list_ id).map f)
        pc := update s.pc t p
        called_exit_ := b
        tid_list_ := tids } :=
  h.congr rfl (PartialMap.map_modify (fun th => (hf th).1) s.thread_list_ id) rfl h.values
    (update_pc_iff (Pc.Local.ne_wait hold _ _) (Pc.Local.ne_wait hnew _ _))
    (update_pc_iff (Pc.Local.ne_gone hold) (Pc.Local.ne_gone hnew))

theorem Wf.took (h : Wf s) {t tid : Tid} {p : Pc} (hold : (s.pc t).Local) (hp : p.Local) :
    Wf { s with ret_values_ := update s.ret_values_ tid none, pc := update s.pc t p } := by
  refine h.congr rfl (fun _ => rfl) rfl ?_
    (update_pc_iff (Pc.Local.ne_wait hold _ _) (Pc.Local.ne_wait hp _ _))
    (update_pc_iff (Pc.Local.ne_gone hold) (Pc.Local.ne_gone hp))
  intro u hu
  apply h.values
  intro hnone
  apply hu
  simp [update_apply, hnone]

/-! ### The deadlock check -/

/-- The answer of the loop: does a chain of waits lead from `target` to where the loop starts? -/
theorem joinDeadlock_iff {target : Tid} {n : ℕ} {x : Tid} {b : Bool}
    (h : joinDeadlock s.waiting_list_ target n x = some b) :
    b = true ↔ TransGen s.WaitsOn target x := by
  induction n generalizing x with
  | zero => cases h
  | succ n ih =>
    rw [joinDeadlock] at h
    split at h
    · rename_i w hw
      have hedge : s.WaitsOn w.waiter_ x := ⟨w, hw, rfl⟩
      split at h
      · rename_i heq
        cases h
        rw [← heq]
        exact ⟨fun _ => .single hedge, fun _ => rfl⟩
      · rename_i hne
        rw [ih h]
        constructor
        · intro hchain
          exact hchain.tail hedge
        · intro hchain
          -- the last edge of the chain is the entry that the loop has just followed
          obtain ⟨y, hy, hlast⟩ := TransGen.tail'_iff.mp hchain
          obtain ⟨w', hw', rfl⟩ := hlast
          obtain rfl : w = w' := Option.some.inj (hw.symm.trans hw')
          rcases Relation.reflTransGen_iff_eq_or_transGen.mp hy with heq | hy
          · exact absurd heq hne
          · exact hy
    · rename_i hw
      cases h
      constructor
      · intro hfalse
        cases hfalse
      · intro hchain
        obtain ⟨y, -, w', hw', -⟩ := TransGen.tail'_iff.mp hchain
        rw [hw] at hw'
        cases hw'

/-- The loop ends within `deadlockPasses` passes. -/
theorem Wf.joinDeadlock_terminates (h : Wf s) (target : Tid) {n : ℕ} (hn : s.next_tid_ < n)
    (x : Tid) : joinDeadlock s.waiting_list_ target n x ≠ none := by
  have hacyclic : WaitGraph.Acyclic (Function.swap s.WaitsOn) := by
    intro y hy
    rw [Relation.transGen_swap] at hy
    exact h.acyclic y hy
  -- the rank of the thread reached drops with every pass
  have hpass : ∀ n x, WaitGraph.rank (Function.swap s.WaitsOn) (Finset.range s.next_tid_) x < n →
      joinDeadlock s.waiting_list_ target n x ≠ none := by
    intro n
    induction n with
    | zero =>
      intro x hx
      omega
    | succ n ih =>
      intro x hx
      rw [joinDeadlock]
      split
      · rename_i w hw
        split
        · exact Option.some_ne_none _
        · apply ih
          have hx' : x ∈ Finset.range s.next_tid_ := by
            rw [Finset.mem_range]
            exact h.targets (by rw [hw]; exact Option.some_ne_none _)
          have hlt := WaitGraph.rank_lt hacyclic hx' (show Function.swap s.WaitsOn x w.waiter_ from
            ⟨w, hw, rfl⟩)
          omega
      · exact Option.some_ne_none _
  apply hpass
  have hle := WaitGraph.rank_le (R := Function.swap s.WaitsOn) (Finset.range s.next_tid_) x
  rw [Finset.card_range] at hle
  exact Nat.lt_of_le_of_lt hle hn

/-! ### The steps keep the invariant -/

theorem wf_start (tid : Tid) (main : UserThread) :
    Wf (start tid main) where
  fresh {t} ht := by
    have hne : t ≠ tid := Nat.ne_of_gt ht
    simp [start, state, hne]
  alive {t} ht := by
    by_cases hne : t = tid
    · simp [start, state, hne]
    · simp [start, hne] at ht
  dead {t} ht := by
    by_cases hne : t = tid
    · simp [start, hne] at ht
    · simp [start, state, hne]
  waiter hw := by simp [start] at hw
  waits {x c t} hx := by
    by_cases hne : x = tid
    · simp [start, hne] at hx
    · simp [start, hne] at hx
  slept hw := by simp [start] at hw
  asleep {t} ht := by
    by_cases hne : t = tid
    · simp [start, state, hne] at ht
    · simp [start, state, hne] at ht
  targets ht := by simp [start] at ht
  values ht := by simp [start] at ht
  acyclic x hx := by
    obtain ⟨y, -, w, hw, -⟩ := TransGen.tail'_iff.mp hx
    simp [start] at hw

theorem Wf.created (h : Wf s) {tid : Tid} (hle : s.next_tid_ ≤ tid) :
    Wf { s with
        next_tid_ := tid + 1
        thread_list_ := update s.thread_list_ tid (some ⟨.Running, false, true, false⟩)
        pc := update s.pc tid .user } := by
  have hold : s.state tid = none := h.fresh hle
  have hgone : s.pc tid = .gone := by
    by_contra hpc
    have := h.alive hpc
    simp [hold] at this
  have hself : state { s with
        next_tid_ := tid + 1
        thread_list_ := update s.thread_list_ tid (some ⟨.Running, false, true, false⟩)
        pc := update s.pc tid .user } tid = some .Running := by
    simp [state]
  have hother : ∀ {u}, u ≠ tid → state { s with
        next_tid_ := tid + 1
        thread_list_ := update s.thread_list_ tid (some ⟨.Running, false, true, false⟩)
        pc := update s.pc tid .user } u = s.state u := by
    intro u hu
    simp [state, hu]
  have hwait : ∀ {x c u}, update s.pc tid .user x = .wait c u ↔ s.pc x = .wait c u :=
    update_pc_iff (by simp [hgone]) (by simp)
  constructor
  · intro u hu
    rw [hother (Nat.ne_of_gt hu)]
    exact h.fresh (Nat.le_trans hle (Nat.le_of_succ_le hu))
  · intro u hu
    by_cases hut : u = tid
    · rw [hut, hself]
      exact .inl rfl
    · rw [hother hut]
      exact h.alive (by simpa [hut] using hu)
  · intro u hu
    by_cases hut : u = tid
    · simp [hut] at hu
    · rw [hother hut]
      exact h.dead (by simpa [hut] using hu)
  · intro u w hw
    obtain ⟨c, hc⟩ := h.waiter hw
    exact ⟨c, hwait.mpr hc⟩
  · intro x c u hx
    exact h.waits (hwait.mp hx)
  · intro u w hw
    obtain ⟨c, hc⟩ := h.waiter hw
    have hne : w.waiter_ ≠ tid := by
      rintro hw
      rw [hw, hgone] at hc
      cases hc
    rw [hother hne]
    exact h.slept hw
  · intro u hu
    by_cases hut : u = tid
    · rw [hut, hself] at hu
      cases hu
    · rw [hother hut] at hu
      obtain ⟨c, t, hc⟩ := h.asleep hu
      exact ⟨c, t, hwait.mpr hc⟩
  · intro u hu
    exact Nat.lt_succ_of_lt (Nat.lt_of_lt_of_le (h.targets hu) hle)
  · intro u hu
    exact Nat.lt_succ_of_lt (Nat.lt_of_lt_of_le (h.values hu) hle)
  · exact h.acyclic

theorem setState_state (s : UserProcess) (t u : Tid) (st : ThreadState) :
    (s.setState t st).state u = if u = t then (s.state u).map fun _ => st else s.state u := by
  by_cases hu : u = t
  · subst hu
    simp [setState, modifyThread, state]
    rfl
  · simp [setState, modifyThread, state, hu]

theorem Wf.died (h : Wf s) {t : Tid} (hpc : ∀ c u, s.pc t ≠ .wait c u) :
    Wf ((s.setState t .ToBeDestroyed).setPc t .gone) := by
  have hst : ∀ u, ((s.setState t .ToBeDestroyed).setPc t .gone).state u =
      if u = t then (s.state u).map fun _ => .ToBeDestroyed else s.state u :=
    fun u => setState_state s t u _
  have hwait : ∀ {x c u}, update s.pc t .gone x = .wait c u ↔ s.pc x = .wait c u :=
    update_pc_iff (hpc _ _) (by simp)
  have hne : ∀ {u w}, s.waiting_list_ u = some w → w.waiter_ ≠ t := by
    rintro u w hw rfl
    obtain ⟨c, hc⟩ := h.waiter hw
    exact hpc c u hc
  constructor
  · intro u hu
    rw [hst, h.fresh hu]
    simp
  · intro u hu
    by_cases hut : u = t
    · simp [setPc, hut] at hu
    · rw [hst, if_neg hut]
      exact h.alive (by simpa [setPc, hut, setState, modifyThread] using hu)
  · intro u hu
    by_cases hut : u = t
    · rw [hst, if_pos hut]
      cases s.state u <;> simp
    · rw [hst, if_neg hut]
      exact h.dead (by simpa [setPc, hut, setState, modifyThread] using hu)
  · intro u w hw
    obtain ⟨c, hc⟩ := h.waiter hw
    exact ⟨c, hwait.mpr hc⟩
  · intro x c u hx
    exact h.waits (hwait.mp hx)
  · intro u w hw
    rw [hst, if_neg (hne hw)]
    exact h.slept hw
  · intro u hu
    by_cases hut : u = t
    · rw [hst, if_pos hut] at hu
      cases hs : s.state u <;> simp [hs] at hu
    · rw [hst, if_neg hut] at hu
      obtain ⟨c, tid, hc⟩ := h.asleep hu
      exact ⟨c, tid, hwait.mpr hc⟩
  · exact h.targets
  · exact h.values
  · exact h.acyclic

theorem Wf.destroyed (h : Wf s) {t : Tid} (ht : s.state t = some .ToBeDestroyed) :
    Wf { s with thread_list_ := update s.thread_list_ t none } := by
  have hself : state { s with thread_list_ := update s.thread_list_ t none } t = none := by
    simp [state]
  have hother : ∀ {u}, u ≠ t →
      state { s with thread_list_ := update s.thread_list_ t none } u = s.state u := by
    intro u hu
    simp [state, hu]
  constructor
  · intro u hu
    by_cases hut : u = t
    · rw [hut, hself]
    · rw [hother hut]
      exact h.fresh hu
  · intro u hu
    have hut : u ≠ t := by
      rintro rfl
      rcases h.alive hu with h1 | h1 <;> simp [ht] at h1
    rw [hother hut]
    exact h.alive hu
  · intro u hu
    by_cases hut : u = t
    · exact .inl (by rw [hut, hself])
    · rw [hother hut]
      exact h.dead hu
  · exact h.waiter
  · exact h.waits
  · intro u w hw
    have hne : w.waiter_ ≠ t := by
      intro heq
      rcases h.slept hw with ⟨-, h1⟩ | ⟨-, h1⟩ <;> simp [heq, ht] at h1
    rw [hother hne]
    exact h.slept hw
  · intro u hu
    by_cases hut : u = t
    · rw [hut, hself] at hu
      cases hu
    · rw [hother hut] at hu
      exact h.asleep hu
  · exact h.targets
  · exact h.values
  · exact h.acyclic

/-- Adding the entry for a join that passed the deadlock check closes no cycle. -/
theorem Wf.slept_step (h : Wf s) {t tid : Tid} {c : Caller} (hpc : (s.pc t).Local) (hne : t ≠ tid)
    (htarget : s.state tid ≠ none) (hwait : s.waiting_list_ tid = none)
    (hdead : ¬TransGen s.WaitsOn tid t) :
    Wf (({ s with waiting_list_ := update s.waiting_list_ tid (some ⟨t, ⟨[t]⟩⟩) }.setState t
      .Sleeping).setPc t (.wait c tid)) := by
  set s' := (({ s with waiting_list_ := update s.waiting_list_ tid (some ⟨t, ⟨[t]⟩⟩) }.setState t
      .Sleeping).setPc t (.wait c tid)) with hs'
  have hwl : ∀ u, s'.waiting_list_ u = if u = tid then some ⟨t, ⟨[t]⟩⟩ else s.waiting_list_ u :=
    fun u => update_apply ..
  have hpc' : ∀ u, s'.pc u = if u = t then .wait c tid else s.pc u := fun u => update_apply ..
  have hst : ∀ u, s'.state u = if u = t then (s.state u).map fun _ => .Sleeping else s.state u :=
    fun u => setState_state _ t u _
  have hrunning : s.state t = some .Running := by
    rcases h.alive (Pc.Local.ne_gone hpc) with hr | hs
    · exact hr
    · obtain ⟨c', u, hw⟩ := h.asleep hs
      exact absurd hw (Pc.Local.ne_wait hpc c' u)
  have hself : s'.state t = some .Sleeping := by simp [hst, hrunning]
  have holdwaiter : ∀ {u w}, s.waiting_list_ u = some w → w.waiter_ ≠ t := by
    rintro u w hw rfl
    obtain ⟨c', hc⟩ := h.waiter hw
    exact Pc.Local.ne_wait hpc c' u hc
  constructor
  · intro u hu
    rw [hst, h.fresh hu]
    simp
  · intro u hu
    by_cases hut : u = t
    · exact .inr (by rw [hut, hself])
    · rw [hst, if_neg hut]
      rw [hpc', if_neg hut] at hu
      exact h.alive hu
  · intro u hu
    have hut : u ≠ t := by
      rintro rfl
      simp [hpc'] at hu
    rw [hst, if_neg hut]
    rw [hpc', if_neg hut] at hu
    exact h.dead hu
  · intro u w hw
    rw [hwl] at hw
    split_ifs at hw with hu
    · cases hw
      exact ⟨c, by simp [hpc', hu]⟩
    · obtain ⟨c', hc⟩ := h.waiter hw
      exact ⟨c', by rw [hpc', if_neg (holdwaiter hw), hc]⟩
  · intro x c' u hx
    rw [hpc'] at hx
    split_ifs at hx with hxt
    · cases hx
      exact ⟨⟨t, ⟨[t]⟩⟩, by simp [hwl], hxt.symm⟩
    · obtain ⟨w, hw, heq⟩ := h.waits hx
      have hu : u ≠ tid := by
        rintro rfl
        rw [hwait] at hw
        cases hw
      exact ⟨w, by rw [hwl, if_neg hu, hw], heq⟩
  · intro u w hw
    rw [hwl] at hw
    split_ifs at hw with hu
    · cases hw
      exact .inl ⟨rfl, hself⟩
    · rw [hst, if_neg (holdwaiter hw)]
      exact h.slept hw
  · intro u hu
    by_cases hut : u = t
    · exact ⟨c, tid, by simp [hpc', hut]⟩
    · rw [hst, if_neg hut] at hu
      obtain ⟨c', u', hc⟩ := h.asleep hu
      exact ⟨c', u', by rw [hpc', if_neg hut, hc]⟩
  · intro u hu
    by_cases hut : u = tid
    · rw [hut]
      exact h.lt_next htarget
    · rw [hwl, if_neg hut] at hu
      exact h.targets hu
  · exact h.values
  · have hedges : ∀ {x u}, s'.WaitsOn x u → WaitGraph.addEdge s.WaitsOn t tid x u := by
      rintro x u ⟨w, hw, rfl⟩
      rw [hwl] at hw
      split_ifs at hw with hu
      · cases hw
        exact .inr ⟨rfl, hu⟩
      · exact .inl ⟨w, hw, rfl⟩
    refine WaitGraph.Acyclic.mono (WaitGraph.acyclic_addEdge_iff.mpr ⟨h.acyclic, ?_⟩) hedges
    intro hchain
    rcases Relation.reflTransGen_iff_eq_or_transGen.mp hchain with heq | hchain
    · exact hne heq
    · exact hdead hchain

theorem Wf.woke (h : Wf s) {t tid : Tid} {c : Caller} {p : Pc} (hpc : s.pc t = .wait c tid)
    (hrun : s.state t = some .Running) (hp : p.Local) :
    Wf { s with
      waiting_list_ := update s.waiting_list_ tid none
      ret_values_ := update s.ret_values_ tid none
      pc := update s.pc t p } := by
  obtain ⟨w, hw, hwaiter⟩ := h.waits hpc
  have hkeep : ∀ {u v}, update s.waiting_list_ tid none u = some v →
      u ≠ tid ∧ s.waiting_list_ u = some v :=
    PartialMap.update_none_eq_some.mp
  have hne : ∀ {u v}, u ≠ tid → s.waiting_list_ u = some v → v.waiter_ ≠ t := by
    intro u v hu hv heq
    exact hu (h.waitsOn_unique ⟨v, hv, heq⟩ ⟨w, hw, hwaiter⟩)
  constructor
  · exact h.fresh
  · intro u hu
    by_cases hut : u = t
    · exact .inl (by rw [hut]; exact hrun)
    · exact h.alive (by simpa [hut] using hu)
  · intro u hu
    have hut : u ≠ t := by
      rintro rfl
      exact Pc.Local.ne_gone hp (by simpa using hu)
    exact h.dead (by simpa [hut] using hu)
  · intro u v hv
    obtain ⟨hu, hv⟩ := hkeep hv
    obtain ⟨c', hc⟩ := h.waiter hv
    exact ⟨c', by simpa [hne hu hv] using hc⟩
  · intro x c' u hx
    have hxt : x ≠ t := by
      rintro rfl
      exact Pc.Local.ne_wait hp c' u (by simpa using hx)
    obtain ⟨v, hv, heq⟩ := h.waits (by simpa [hxt] using hx)
    have hu : u ≠ tid := by
      rintro rfl
      obtain rfl : v = w := Option.some.inj (hv.symm.trans hw)
      exact hxt (heq.symm.trans hwaiter)
    exact ⟨v, by simpa [hu] using hv, heq⟩
  · intro u v hv
    exact h.slept (hkeep hv).2
  · intro u hu
    obtain ⟨c', u', hc⟩ := h.asleep hu
    have hut : u ≠ t := by
      rintro rfl
      have hsleep : s.state u = some .Sleeping := hu
      rw [hrun] at hsleep
      cases hsleep
    exact ⟨c', u', by simpa [hut] using hc⟩
  · intro u hu
    obtain ⟨v, hv⟩ := Option.ne_none_iff_exists'.mp hu
    exact h.targets (by rw [(hkeep hv).2]; exact Option.some_ne_none _)
  · intro u hu
    refine h.values fun hnone => hu ?_
    simp [update_apply, hnone]
  · exact h.acyclic.mono fun ⟨v, hv, heq⟩ => ⟨v, (hkeep hv).2, heq⟩

theorem storeValue_next_tid_ (s : UserProcess) (tid : Tid) (retval : Ptr) :
    (s.storeValue tid retval).next_tid_ = s.next_tid_ := alertWaiter_next_tid_ _ tid

theorem storeValue_pc (s : UserProcess) (tid : Tid) (retval : Ptr) :
    (s.storeValue tid retval).pc = update s.pc tid (.exit retval) := by
  show update (alertWaiter _ tid).pc tid (.exit retval) = _
  rw [alertWaiter_pc]

theorem storeValue_ret_values_ (s : UserProcess) (tid : Tid) (retval : Ptr) :
    (s.storeValue tid retval).ret_values_ = update s.ret_values_ tid (some retval) :=
  alertWaiter_ret_values_ _ tid

theorem storeValue_waiting (s : UserProcess) (tid : Tid) (retval : Ptr) (u : Tid) :
    (s.storeValue tid retval).waiting_list_ u = if u = tid then
      (s.waiting_list_ tid).map fun w => { w with cond_ := ⟨w.cond_.waiters_list_.dropLast⟩ }
    else s.waiting_list_ u := alertWaiter_waiting _ tid u

theorem storeValue_state_eq (s : UserProcess) (tid : Tid) (retval : Ptr) (u : Tid) :
    (s.storeValue tid retval).state u =
      (alertWaiter { s with ret_values_ := update s.ret_values_ tid (some retval) } tid).state u :=
  PartialMap.map_modify (g := UserThread.state_) (f := fun th : UserThread => { th with exited_ := true }) (fun _ => rfl) _ tid u

theorem storeValue_state {tid : Tid} {retval : Ptr} {w : WaitingInfo} {o : Option Tid}
    (hw : s.waiting_list_ tid = some w) (ho : w.cond_.waiters_list_.getLast? = o) (u : Tid) :
    (s.storeValue tid retval).state u = if o = some u then (s.state u).map fun _ => .Running
    else s.state u := by
  rw [storeValue_state_eq]
  exact alertWaiter_state (s := { s with ret_values_ := update s.ret_values_ tid (some retval) }) hw ho u

theorem storeValue_state_none {tid : Tid} {retval : Ptr} (hw : s.waiting_list_ tid = none)
    (u : Tid) : (s.storeValue tid retval).state u = s.state u := by
  rw [storeValue_state_eq, alertWaiter]
  simp only [hw]
  rfl

theorem Wf.exited (h : Wf s) {tid : Tid} {retval : Ptr} (hpc : (s.pc tid).Local)
    (hth : s.state tid ≠ none) :
    Wf (s.storeValue tid retval) := by
  set s' := s.storeValue tid retval with hs'
  have hnext : s'.next_tid_ = s.next_tid_ := storeValue_next_tid_ s tid retval
  have hpc' : s'.pc = update s.pc tid (.exit retval) := storeValue_pc s tid retval
  have hwait : ∀ {x c u}, s'.pc x = .wait c u ↔ s.pc x = .wait c u := by
    rw [hpc']
    exact update_pc_iff (Pc.Local.ne_wait hpc _ _) (by simp)
  have hgone : ∀ {x}, s'.pc x = .gone ↔ s.pc x = .gone := by
    rw [hpc']
    exact update_pc_iff (Pc.Local.ne_gone hpc) (by simp)
  have hret : ∀ {u}, s'.ret_values_ u ≠ none → u < s.next_tid_ := by
    intro u hu
    rw [hs', storeValue_ret_values_] at hu
    by_cases hut : u = tid
    · rw [hut]
      exact h.lt_next hth
    · exact h.values (by simpa [hut] using hu)
  cases hw : s.waiting_list_ tid with
  | none =>
    refine h.congr hnext (storeValue_state_none hw) ?_ hret hwait hgone
    funext u
    rw [hs', storeValue_waiting, hw]
    split_ifs with hu
    · rw [hu, hw]
      rfl
    · rfl
  | some w =>
    rcases h.slept hw with ⟨hcond, hsleep⟩ | ⟨hcond, hrun⟩
    · -- the waiter is on the list: it wakes up, and its entry stays
      have hst : ∀ u, s'.state u = if u = w.waiter_ then some .Running else s.state u := by
        intro u
        rw [hs', storeValue_state (o := some w.waiter_) hw (by simp [hcond])]
        by_cases hu : u = w.waiter_
        · simp [hu, hsleep]
        · rw [if_neg (by simpa using fun h => hu h.symm), if_neg hu]
      have hwl' : ∀ u, s'.waiting_list_ u =
          if u = tid then some { w with cond_ := ⟨[]⟩ } else s.waiting_list_ u := by
        intro u
        rw [hs', storeValue_waiting, hw]
        simp [hcond]
      have hback : ∀ {u v}, s'.waiting_list_ u = some v →
          ∃ v', s.waiting_list_ u = some v' ∧ v'.waiter_ = v.waiter_ := by
        intro u v hv
        rw [hwl'] at hv
        split_ifs at hv with hu
        · cases hv
          exact ⟨w, by rw [hu, hw], rfl⟩
        · exact ⟨v, hv, rfl⟩
      constructor
      · intro u hu
        rw [hnext] at hu
        have hnone := h.fresh hu
        have hne : u ≠ w.waiter_ := by
          rintro rfl
          rw [hsleep] at hnone
          cases hnone
        rw [hst, if_neg hne, hnone]
      · intro u hu
        rw [hst]
        split_ifs
        · exact .inl rfl
        · exact h.alive (mt hgone.mpr hu)
      · intro u hu
        have hdead := h.dead (hgone.mp hu)
        have hne : u ≠ w.waiter_ := by
          rintro rfl
          simp [hsleep] at hdead
        rwa [hst, if_neg hne]
      · intro u v hv
        obtain ⟨v', hv', heq⟩ := hback hv
        obtain ⟨c, hc⟩ := h.waiter hv'
        exact ⟨c, hwait.mpr (by rw [← heq, hc])⟩
      · intro x c u hx
        obtain ⟨v, hv, heq⟩ := h.waits (hwait.mp hx)
        by_cases hu : u = tid
        · obtain rfl : v = w := Option.some.inj (by rw [← hv, hu, hw])
          exact ⟨{ v with cond_ := ⟨[]⟩ }, by rw [hwl', if_pos hu], heq⟩
        · exact ⟨v, by rw [hwl', if_neg hu, hv], heq⟩
      · intro u v hv
        rw [hwl'] at hv
        split_ifs at hv with hu
        · cases hv
          exact .inr ⟨rfl, by simp [hst]⟩
        · have hne : v.waiter_ ≠ w.waiter_ := fun heq =>
            hu (h.waitsOn_unique ⟨v, hv, heq⟩ ⟨w, hw, rfl⟩)
          rw [hst, if_neg hne]
          exact h.slept hv
      · intro u hu
        rw [hst] at hu
        split_ifs at hu
        · cases hu
        · obtain ⟨c, t, hc⟩ := h.asleep hu
          exact ⟨c, t, hwait.mpr hc⟩
      · intro u hu
        obtain ⟨v, hv⟩ := Option.ne_none_iff_exists'.mp hu
        obtain ⟨v', hv', -⟩ := hback hv
        rw [hnext]
        exact h.targets (by rw [hv']; exact Option.some_ne_none _)
      · intro u hu
        rw [hnext]
        exact hret hu
      · refine h.acyclic.mono ?_
        rintro x u ⟨v, hv, rfl⟩
        exact hback hv
    · -- the waiter has been woken before: nothing is on the list
      refine h.congr hnext ?_ ?_ hret hwait hgone
      · intro u
        rw [hs', storeValue_state (o := none) hw (by simp [hcond])]
        simp
      · funext u
        rw [hs', storeValue_waiting, hw]
        split_ifs with hu
        · rw [hu, hw]
          exact congrArg some (dropLast_of_nil hcond)
        · rfl

theorem state_eq_of {th : UserThread} {t : Tid} (h : s.thread_list_ t = some th) :
    s.state t = some th.state_ := by
  rw [state, h]
  rfl

theorem state_of_isRunning {t : Tid} (h : s.isRunning t = true) : s.state t = some .Running := by
  obtain ⟨th, hth, hstate⟩ := isRunning_iff.mp h
  rw [state_eq_of hth, hstate]

theorem Wf.effect (h : Wf s) {l : Label} {evs : List Event} (e : Effect s l evs s') : Wf s' := by
  cases e with
  | nothing => exact h
  | goto id t f p b tids hf hold hnew => exact h.goto hf hold hnew
  | created tid hle => exact h.created hle
  | exited tid retval th hpc hth hexited hret =>
    refine h.exited (by rw [hpc]; trivial) ?_
    rw [state_eq_of hth]
    exact Option.some_ne_none _
  | died t stale th hth hpc =>
    refine h.died fun c u hw => ?_
    rw [hw] at hpc
    rcases hpc with ⟨retval, hpc⟩ | ⟨hpc, -⟩ | hpc <;> cases hpc
  | took t stale c tid rv p hpc hne hret hp => exact h.took (by rw [hpc]; trivial) hp
  | slept t stale c tid target hpc hne hret htarget hexited hwait hdead =>
    refine h.slept_step (by rw [hpc]; trivial) hne ?_ hwait ?_
    · rw [state_eq_of htarget]
      exact Option.some_ne_none _
    · intro hchain
      have := (joinDeadlock_iff hdead).mpr hchain
      cases this
  | woke t stale c tid w rv p hrun hpc hw hret hp => exact h.woke hpc (state_of_isRunning hrun) hp
  | destroyed t th hth hstate => exact h.destroyed (by rw [state_eq_of hth, hstate])

theorem wf_of_runs {ok : UserProcess → Label → Prop} {tid : Tid} {main : UserThread}
    {tr : List Event} (h : Runs ok tid main tr s) : Wf s := by
  refine h.invariant (I := fun _ s => Wf s) (wf_start tid main) ?_
  intro tr s l t evs hwf _ hstep
  have hspec := step_spec s l
  rw [hstep] at hspec
  exact hwf.effect hspec

/-- In every reachable state the recorded waits are acyclic, a thread is the waiter of at most one
target, and `joinDeadlock` ends; with the test `caller == tid` before it, it refuses exactly the
joins whose edge would close a cycle. -/
theorem joinDeadlock_exact {tid : Tid} {main : UserThread} {tr : List Event}
    (h : Runs (fun _ _ => True) tid main tr s) :
    WaitGraph.Acyclic s.WaitsOn ∧
    (∀ w t t', s.WaitsOn w t → s.WaitsOn w t' → t = t') ∧
    ∀ caller target, ∃ b, (∀ n, s.deadlockPasses ≤ n →
        joinDeadlock s.waiting_list_ target n caller = some b) ∧
      (caller ≠ target → (b = true ↔
        ¬WaitGraph.Acyclic (WaitGraph.addEdge s.WaitsOn caller target))) ∧
      (caller = target ∨ b = true ↔
        ¬WaitGraph.Acyclic (WaitGraph.addEdge s.WaitsOn caller target)) := by
  have hwf := wf_of_runs h
  refine ⟨hwf.acyclic, fun w t t' => hwf.waitsOn_unique, fun caller target => ?_⟩
  obtain ⟨b, hb⟩ := Option.ne_none_iff_exists'.mp
    (hwf.joinDeadlock_terminates target (Nat.lt_succ_self s.next_tid_) caller)
  have hchain := joinDeadlock_iff hb
  have hclose : caller = target ∨ b = true ↔
      ¬WaitGraph.Acyclic (WaitGraph.addEdge s.WaitsOn caller target) := by
    rw [WaitGraph.acyclic_addEdge_iff, hchain]
    simp only [hwf.acyclic, true_and, not_not]
    rw [Relation.reflTransGen_iff_eq_or_transGen]
  refine ⟨b, ?_, ?_, hclose⟩
  · intro n hn
    obtain ⟨b', hb'⟩ := Option.ne_none_iff_exists'.mp
      (hwf.joinDeadlock_terminates target (n := n) hn caller)
    have hiff : b' = true ↔ b = true := (joinDeadlock_iff hb').trans hchain.symm
    rw [hb', Bool.eq_iff_iff.mpr hiff]
  · intro hne
    rw [← hclose]
    simp [hne]

/-- Thread 0 sleeps in `joinThread(1)`. -/
theorem joinDeadlock_exact_two : ∃ tr s,
    Runs (fun _ _ => True) 0 ⟨.Running, false, true, false⟩ tr s ∧ s.WaitsOn 0 1 ∧
    WaitGraph.Acyclic s.WaitsOn := by
  have hrun := Machine.runs_of_exec step (start 0 ⟨.Running, false, true, false⟩)
    [.createThread 0, .callJoinThread 0 1, .run 0 0] rfl
  exact ⟨_, _, hrun, ⟨_, rfl, rfl⟩, (joinDeadlock_exact hrun).1⟩

end UserProcess

end KPanic.Threads

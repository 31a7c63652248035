import KPanic.Lib.LinkedList

/-!
# `common/source/kernel/Lock.cpp`: the lists of waiters and of held locks

The links are in the threads and in the locks: a thread is on the list of one lock at most, a lock on the
list of one thread. The loops take the number of passes they may make.
-/

namespace KPanic.LockLists

open Function
open LinkedList

inductive Stop
  | assertion
  | nullPointer
  | passes
  deriving DecidableEq

variable {T L : Type} [DecidableEq T] [DecidableEq L]

structure State (T L : Type) where
  next_thread_in_lock_waiters_list_ : T → Option T
  waiters_list_ : L → Option T
  waiters_list_lock_ : L → Bool
  next_lock_on_holding_list_ : L → Option L
  holding_lock_list_ : T → Option L
  currentThread : Option T

/-- The links as the constructors of `Thread` and `Lock` leave them. -/
def State.new (T L : Type) : State T L :=
  ⟨fun _ => none, fun _ => none, fun _ => false, fun _ => none, fun _ => none, none⟩

namespace State

def pushFrontCurrentThreadToWaitersList (lock : L) (s : State T L) : Except Stop (State T L) :=
  match s.currentThread with
  | none => .error .assertion
  | some t =>
    if s.waiters_list_lock_ lock then
      .ok { s with
        next_thread_in_lock_waiters_list_ := update s.next_thread_in_lock_waiters_list_ t (s.waiters_list_ lock)
        waiters_list_ := update s.waiters_list_ lock (some t) }
    else .error .assertion

/-- The loop that looks for the thread before the last one. -/
def beforeLast (next : T → Option T) : ℕ → T → Except Stop T
  | 0, _ => .error .passes
  | passes + 1, previos =>
    match next previos with
    | none => .error .nullPointer
    | some thread => if next thread = none then .ok previos else beforeLast next passes thread

def popBackThreadFromWaitersList (passes : ℕ) (lock : L) (s : State T L) : Except Stop (Option T × State T L) :=
  if s.waiters_list_lock_ lock then
    match s.waiters_list_ lock with
    | none => .ok (none, s)
    | some first =>
      if s.next_thread_in_lock_waiters_list_ first = none then
        .ok (some first, { s with waiters_list_ := update s.waiters_list_ lock none })
      else do
        let previos ← beforeLast s.next_thread_in_lock_waiters_list_ passes first
        .ok (s.next_thread_in_lock_waiters_list_ previos, { s with
          next_thread_in_lock_waiters_list_ := update s.next_thread_in_lock_waiters_list_ previos none })
  else .error .assertion

/-- The loop that takes out the current thread behind the first one. -/
def takeOut (next : T → Option T) (currentThread : T) : ℕ → T → Except Stop (T → Option T)
  | 0, _ => .error .passes
  | passes + 1, thread =>
    match next thread with
    | none => .ok next
    | some t =>
      if t = currentThread then .ok (update next thread (next currentThread)) else takeOut next currentThread passes t

def removeCurrentThreadFromWaitersList (passes : ℕ) (lock : L) (s : State T L) : Except Stop (State T L) :=
  match s.currentThread with
  | none => .ok s
  | some t =>
    if s.waiters_list_lock_ lock then
      match s.waiters_list_ lock with
      | none => .error .assertion
      | some first =>
        if t = first then
          .ok { s with
            waiters_list_ := update s.waiters_list_ lock (s.next_thread_in_lock_waiters_list_ t)
            next_thread_in_lock_waiters_list_ := update s.next_thread_in_lock_waiters_list_ t none }
        else do
          let next ← takeOut s.next_thread_in_lock_waiters_list_ t passes first
          .ok { s with next_thread_in_lock_waiters_list_ := update next t none }
    else .error .assertion

def pushFrontToCurrentThreadHoldingList (lock : L) (s : State T L) : State T L :=
  match s.currentThread with
  | none => s
  | some t =>
    { s with
      next_lock_on_holding_list_ := update s.next_lock_on_holding_list_ lock (s.holding_lock_list_ t)
      holding_lock_list_ := update s.holding_lock_list_ t (some lock) }

/-- The loop that takes out the lock behind `current` or a later one. -/
def unlink (next : L → Option L) (lock : L) : ℕ → Option L → Except Stop (L → Option L)
  | 0, _ => .error .passes
  | _ + 1, none => .ok next
  | passes + 1, some current =>
    if next current = some lock then .ok (update next current (next lock)) else unlink next lock passes (next current)

def removeFromCurrentThreadHoldingList (passes : ℕ) (lock : L) (s : State T L) : Except Stop (State T L) :=
  match s.currentThread with
  | none => .ok s
  | some t =>
    if s.holding_lock_list_ t = some lock then
      .ok { s with
        holding_lock_list_ := update s.holding_lock_list_ t (s.next_lock_on_holding_list_ lock)
        next_lock_on_holding_list_ := update s.next_lock_on_holding_list_ lock none }
    else do
      let next ← unlink s.next_lock_on_holding_list_ lock passes (s.holding_lock_list_ t)
      .ok { s with next_lock_on_holding_list_ := update next lock none }

end State

/-! ### Calls -/

/-- The calls, with the current thread. -/
inductive Call (T L : Type)
  | pushFront (currentThread : Option T) (lock : L)
  | popBack (currentThread : Option T) (lock : L)
  | remove (currentThread : Option T) (lock : L)
  | hold (currentThread : Option T) (lock : L)
  | release (currentThread : Option T) (lock : L)

/-- A call between `lockWaitersList` and `unlockWaitersList`. -/
def State.locked {α : Type} (s : State T L) (currentThread : Option T) (lock : L)
    (call : State T L → Except Stop (α × State T L)) : Except Stop (α × State T L) := do
  let (a, s) ← call { s with waiters_list_lock_ := update s.waiters_list_lock_ lock true, currentThread }
  .ok (a, { s with waiters_list_lock_ := update s.waiters_list_lock_ lock false })

/-- The thread is what `popBackThreadFromWaitersList` returns. -/
def State.call (passes : ℕ) (s : State T L) : Call T L → Except Stop (Option T × State T L)
  | .pushFront t lock =>
    s.locked t lock fun s => do .ok (none, ← s.pushFrontCurrentThreadToWaitersList lock)
  | .popBack t lock => s.locked t lock (popBackThreadFromWaitersList passes lock)
  | .remove t lock =>
    s.locked t lock fun s => do .ok (none, ← s.removeCurrentThreadFromWaitersList passes lock)
  | .hold t lock => .ok (none, { s with currentThread := t }.pushFrontToCurrentThreadHoldingList lock)
  | .release t lock => do .ok (none, ← { s with currentThread := t }.removeFromCurrentThreadHoldingList passes lock)

def State.calls (passes : ℕ) (s : State T L) : List (Call T L) → Except Stop (List (Option T) × State T L)
  | [] => .ok ([], s)
  | c :: cs => do
    let (t, s) ← s.call passes c
    let (ts, s) ← s.calls passes cs
    .ok (t :: ts, s)

/-! ### The lists -/

/-- Who waits, and what is held, the newest first. -/
structure Queues (T L : Type) where
  waiters : L → List T
  holding : T → List L

structure Represents (s : State T L) (q : Queues T L) : Prop where
  waiters : Lists s.next_thread_in_lock_waiters_list_ s.waiters_list_ q.waiters
  holding : Lists s.next_lock_on_holding_list_ s.holding_lock_list_ q.holding

namespace Queues

def call (q : Queues T L) : Call T L → Queues T L
  | .pushFront (some t) lock => { q with waiters := update q.waiters lock (t :: q.waiters lock) }
  | .popBack _ lock => { q with waiters := update q.waiters lock (q.waiters lock).dropLast }
  | .remove (some t) lock => { q with waiters := update q.waiters lock ((q.waiters lock).erase t) }
  | .hold (some t) lock => { q with holding := update q.holding t (lock :: q.holding t) }
  | .release (some t) lock => { q with holding := update q.holding t ((q.holding t).erase lock) }
  | _ => q

def result (q : Queues T L) : Call T L → Option T
  | .popBack _ lock => (q.waiters lock).getLast?
  | _ => none

def calls (q : Queues T L) : List (Call T L) → List (Option T) × Queues T L
  | [] => ([], q)
  | c :: cs => (q.result c :: ((q.call c).calls cs).1, ((q.call c).calls cs).2)

/-- A thread pushes itself when it is on no list, and takes itself from the list that it is on. -/
def Allowed (q : Queues T L) : Call T L → Prop
  | .pushFront t _ => ∃ u, t = some u ∧ ∀ lock, u ∉ q.waiters lock
  | .remove (some t) lock => q.waiters lock ≠ [] ∧ ∀ lock', t ∈ q.waiters lock' → lock' = lock
  | .hold (some _) lock => ∀ t, lock ∉ q.holding t
  | .release (some t) lock => ∀ u, lock ∈ q.holding u → u = t
  | _ => True

def AllAllowed (q : Queues T L) : List (Call T L) → Prop
  | [] => True
  | c :: cs => q.Allowed c ∧ (q.call c).AllAllowed cs

theorem calls_append (q : Queues T L) (cs ds : List (Call T L)) :
    (q.calls (cs ++ ds)).2 = ((q.calls cs).2.calls ds).2 := by
  induction cs generalizing q with
  | nil => rfl
  | cons c cs ih => exact ih (q.call c)

theorem allAllowed_append {q : Queues T L} {cs ds : List (Call T L)} :
    q.AllAllowed (cs ++ ds) ↔ q.AllAllowed cs ∧ (q.calls cs).2.AllAllowed ds := by
  induction cs generalizing q with
  | nil => exact ⟨fun h => ⟨trivial, h⟩, fun h => h.2⟩
  | cons c cs ih =>
    rw [List.cons_append, AllAllowed, ih, AllAllowed, and_assoc]
    rfl

end Queues

variable {s s' : State T L} {q : Queues T L}

theorem represents_new (T L : Type) : Represents (State.new T L) ⟨fun _ => [], fun _ => []⟩ :=
  ⟨Lists.empty L T, Lists.empty T L⟩

/-! ### The loops -/

section Loops

variable {ι : Type} [DecidableEq ι] {next next' : ι → Option ι} {a p t : ι} {l xs ys : List ι} {passes : ℕ}

omit [DecidableEq ι] in
theorem beforeLast_spec (h : Linked next (some p) (p :: a :: l)) (hpasses : l.length < passes) :
    ∃ xs q b, p :: a :: l = xs ++ [q, b] ∧ State.beforeLast next passes p = .ok q := by
  induction l generalizing p a passes with
  | nil =>
    obtain ⟨passes, rfl⟩ := Nat.exists_eq_succ_of_ne_zero (Nat.ne_of_gt hpasses)
    obtain ⟨-, hp, ha⟩ := h
    refine ⟨[], p, a, rfl, ?_⟩
    rw [State.beforeLast, hp]
    exact if_pos ha
  | cons c l ih =>
    obtain ⟨passes, rfl⟩ := Nat.exists_eq_succ_of_ne_zero (Nat.ne_of_gt (Nat.zero_lt_of_lt hpasses))
    obtain ⟨-, hp, hrest⟩ := h
    have hnext : next a = some c := hrest.1
    obtain ⟨xs, q, b, hlist, hloop⟩ := ih (p := a) ⟨rfl, hrest⟩ (Nat.lt_of_succ_lt_succ hpasses)
    refine ⟨p :: xs, q, b, by rw [hlist, List.cons_append], ?_⟩
    rw [State.beforeLast, hp]
    dsimp only
    rw [if_neg (by rw [hnext]; exact Option.some_ne_none c)]
    exact hloop

theorem takeOut_of_mem (h : Linked next (some p) (p :: l)) (ht : t ∈ l) (hpasses : l.length < passes) :
    ∃ xs q ys, p :: l = xs ++ q :: t :: ys ∧ State.takeOut next t passes p = .ok (update next q (next t)) := by
  induction l generalizing p passes with
  | nil => cases ht
  | cons c l ih =>
    obtain ⟨passes, rfl⟩ := Nat.exists_eq_succ_of_ne_zero (Nat.ne_of_gt (Nat.zero_lt_of_lt hpasses))
    obtain ⟨-, hp, hrest⟩ := h
    by_cases hc : c = t
    · refine ⟨[], p, l, by rw [hc]; rfl, ?_⟩
      rw [State.takeOut, hp]
      exact if_pos hc
    · obtain ⟨xs, q, ys, hlist, hloop⟩ := ih (p := c) ⟨rfl, hrest⟩ ((List.mem_cons.mp ht).resolve_left (Ne.symm hc))
        (Nat.lt_of_succ_lt_succ hpasses)
      refine ⟨p :: xs, q, ys, by rw [hlist, List.cons_append], ?_⟩
      rw [State.takeOut, hp]
      dsimp only
      rw [if_neg hc]
      exact hloop

theorem takeOut_of_notMem (h : Linked next (some p) (p :: l)) (ht : t ∉ l) (hpasses : l.length < passes) :
    State.takeOut next t passes p = .ok next := by
  induction l generalizing p passes with
  | nil =>
    obtain ⟨passes, rfl⟩ := Nat.exists_eq_succ_of_ne_zero (Nat.ne_of_gt hpasses)
    rw [State.takeOut, h.2]
  | cons c l ih =>
    obtain ⟨passes, rfl⟩ := Nat.exists_eq_succ_of_ne_zero (Nat.ne_of_gt (Nat.zero_lt_of_lt hpasses))
    obtain ⟨-, hp, hrest⟩ := h
    rw [List.mem_cons, not_or] at ht
    rw [State.takeOut, hp]
    dsimp only
    rw [if_neg (Ne.symm ht.1)]
    exact ih ⟨rfl, hrest⟩ ht.2 (Nat.lt_of_succ_lt_succ hpasses)

/-- Where the one loop ends, the other one does, one pass later. -/
theorem unlink_of_takeOut (h : State.takeOut next t passes p = .ok next') :
    State.unlink next t (passes + 1) (some p) = .ok next' := by
  induction passes generalizing p with
  | zero => cases h
  | succ passes ih =>
    rw [State.takeOut] at h
    rw [State.unlink]
    cases hp : next p with
    | none =>
      rw [hp] at h
      exact h
    | some u =>
      rw [hp] at h
      dsimp only at h
      by_cases hu : u = t
      · rw [if_pos hu] at h
        rw [if_pos (by rw [hu]), h]
      · rw [if_neg hu] at h
        rw [if_neg fun heq => hu (Option.some.inj heq)]
        exact ih h

theorem erase_behind (h : (xs ++ p :: t :: ys).Nodup) : (xs ++ p :: t :: ys).erase t = xs ++ p :: ys := by
  have hsplit : xs ++ p :: t :: ys = (xs ++ [p]) ++ t :: ys := by simp
  have hnot : t ∉ xs ++ [p] := by
    rw [hsplit] at h
    exact fun ht => (List.disjoint_of_nodup_append h) ht List.mem_cons_self
  rw [hsplit, List.erase_append_right _ hnot, List.erase_cons_head, List.append_assoc, List.singleton_append]

end Loops

/-! ### The calls -/

theorem pushFront_spec (R : Represents s q) {t : T} {lock : L} (ht : s.currentThread = some t)
    (hlock : s.waiters_list_lock_ lock = true) (hfree : ∀ lock, t ∉ q.waiters lock) :
    ∃ s', s.pushFrontCurrentThreadToWaitersList lock = .ok s' ∧
      Represents s' { q with waiters := update q.waiters lock (t :: q.waiters lock) } := by
  unfold State.pushFrontCurrentThreadToWaitersList
  rw [ht]
  dsimp only
  rw [if_pos hlock]
  exact ⟨_, rfl, R.waiters.push lock hfree, R.holding⟩

theorem popBack_spec (R : Represents s q) {lock : L} {passes : ℕ} (hlock : s.waiters_list_lock_ lock = true)
    (hpasses : (q.waiters lock).length < passes) :
    ∃ s', s.popBackThreadFromWaitersList passes lock = .ok ((q.waiters lock).getLast?, s') ∧
      Represents s' { q with waiters := update q.waiters lock (q.waiters lock).dropLast } := by
  unfold State.popBackThreadFromWaitersList
  rw [if_pos hlock]
  cases hhead : s.waiters_list_ lock with
  | none =>
    have hnil := R.waiters.eq_nil hhead
    refine ⟨s, by rw [hnil]; rfl, ?_⟩
    have hsame : update q.waiters lock (q.waiters lock).dropLast = q.waiters := by
      rw [hnil, List.dropLast_nil, ← hnil, update_eq_self]
    rw [hsame]
    exact R
  | some first =>
    obtain ⟨l, hl, hlinked⟩ := R.waiters.eq_cons hhead
    dsimp only
    cases l with
    | nil =>
      have hnone : s.next_thread_in_lock_waiters_list_ first = none := hlinked.2
      have hself : update s.next_thread_in_lock_waiters_list_ first none = s.next_thread_in_lock_waiters_list_ := by
        rw [← hnone, update_eq_self]
      have hlists := R.waiters.behead hl
      rw [hself, hnone] at hlists
      rw [if_pos hnone, hl]
      exact ⟨_, rfl, hlists, R.holding⟩
    | cons a l =>
      have hsome : s.next_thread_in_lock_waiters_list_ first = some a := hlinked.2.1
      rw [hl, List.length_cons, List.length_cons] at hpasses
      have hshort : l.length < passes := by omega
      obtain ⟨xs, p, b, hlist, hloop⟩ := beforeLast_spec hlinked hshort
      rw [hlist] at hl hlinked
      have hp : s.next_thread_in_lock_waiters_list_ p = some b := hlinked.behind.2.1
      have hb : s.next_thread_in_lock_waiters_list_ b = none := hlinked.behind.2.2
      have hne : p ≠ b := by
        have hnodup := hlinked.behind.nodup
        rw [List.nodup_cons, List.mem_singleton] at hnodup
        exact hnodup.1
      have hlists := R.waiters.unlink hl
      have hnext : update s.next_thread_in_lock_waiters_list_ p none b = none := (update_of_ne hne.symm _ _).trans hb
      have hself := update_eq_self b (update s.next_thread_in_lock_waiters_list_ p none)
      rw [hnext] at hself
      rw [hb, hself] at hlists
      have hlast : (xs ++ [p, b]).getLast? = some b := by
        rw [List.getLast?_append_of_ne_nil _ (List.cons_ne_nil p [b])]
        rfl
      have hdrop : (xs ++ [p, b]).dropLast = xs ++ [p] := by
        rw [List.dropLast_append_of_ne_nil (List.cons_ne_nil p [b])]
        rfl
      rw [if_neg (by rw [hsome]; exact Option.some_ne_none a), hloop, hl, hlast, hdrop, ← hp]
      exact ⟨_, rfl, hlists, R.holding⟩

/-- Lists from one of which `t` is taken out behind `p`. -/
theorem erase_lists {ι κ : Type} [DecidableEq ι] [DecidableEq κ] {next : ι → Option ι} {heads : κ → Option ι}
    {lists : κ → List ι} {k : κ} {p t : ι} {xs ys : List ι} (h : Lists next heads lists)
    (hl : lists k = xs ++ p :: t :: ys) :
    Lists (update (update next p (next t)) t none) heads (update lists k ((lists k).erase t)) := by
  have hlinked := h.linked k
  rw [hl] at hlinked
  have hlists := h.unlink hl
  rwa [← erase_behind hlinked.nodup, ← hl] at hlists

/-- An element that is on no list keeps the lists when its link is reset. -/
theorem reset_lists {ι κ : Type} [DecidableEq ι] {next : ι → Option ι} {heads : κ → Option ι} {lists : κ → List ι} {t : ι}
    (h : Lists next heads lists) (ht : ∀ k, t ∉ lists k) : update next t none = next := by
  rw [← h.off ht, update_eq_self]

theorem remove_spec (R : Represents s q) {t : T} {lock : L} {passes : ℕ} (ht : s.currentThread = some t)
    (hlock : s.waiters_list_lock_ lock = true) (hne : q.waiters lock ≠ [])
    (hown : ∀ lock', t ∈ q.waiters lock' → lock' = lock) (hpasses : (q.waiters lock).length < passes) :
    ∃ s', s.removeCurrentThreadFromWaitersList passes lock = .ok s' ∧
      Represents s' { q with waiters := update q.waiters lock ((q.waiters lock).erase t) } := by
  unfold State.removeCurrentThreadFromWaitersList
  rw [ht]
  dsimp only
  rw [if_pos hlock]
  cases hhead : s.waiters_list_ lock with
  | none => exact absurd (R.waiters.eq_nil hhead) hne
  | some first =>
    obtain ⟨l, hl, hlinked⟩ := R.waiters.eq_cons hhead
    rw [hl, List.length_cons] at hpasses
    dsimp only
    by_cases hfirst : t = first
    · rw [if_pos hfirst, hfirst, hl, List.erase_cons_head]
      exact ⟨_, rfl, R.waiters.behead hl, R.holding⟩
    · rw [if_neg hfirst]
      by_cases hmem : t ∈ l
      · have hshort : l.length < passes := by omega
        obtain ⟨xs, p, ys, hlist, hloop⟩ := takeOut_of_mem hlinked hmem hshort
        rw [hloop]
        exact ⟨_, rfl, erase_lists R.waiters (hl.trans hlist), R.holding⟩
      · have hnot : t ∉ q.waiters lock := by
          rw [hl, List.mem_cons, not_or]
          exact ⟨hfirst, hmem⟩
        rw [takeOut_of_notMem hlinked hmem (by omega), List.erase_of_not_mem hnot, update_eq_self]
        refine ⟨_, rfl, ?_, R.holding⟩
        dsimp only
        rw [reset_lists R.waiters fun lock' hin => hnot (hown lock' hin ▸ hin)]
        exact R.waiters

theorem hold_spec (R : Represents s q) {t : T} {lock : L} (ht : s.currentThread = some t)
    (hfree : ∀ t, lock ∉ q.holding t) : Represents (s.pushFrontToCurrentThreadHoldingList lock)
      { q with holding := update q.holding t (lock :: q.holding t) } := by
  unfold State.pushFrontToCurrentThreadHoldingList
  rw [ht]
  exact ⟨R.waiters, R.holding.push t hfree⟩

theorem release_spec (R : Represents s q) {t : T} {lock : L} {passes : ℕ} (ht : s.currentThread = some t)
    (hown : ∀ u, lock ∈ q.holding u → u = t) (hpasses : (q.holding t).length < passes) :
    ∃ s', s.removeFromCurrentThreadHoldingList passes lock = .ok s' ∧
      Represents s' { q with holding := update q.holding t ((q.holding t).erase lock) } := by
  unfold State.removeFromCurrentThreadHoldingList
  rw [ht]
  dsimp only
  by_cases hfirst : s.holding_lock_list_ t = some lock
  · obtain ⟨l, hl, -⟩ := R.holding.eq_cons hfirst
    rw [if_pos hfirst, hl, List.erase_cons_head]
    exact ⟨_, rfl, R.waiters, R.holding.behead hl⟩
  · rw [if_neg hfirst]
    by_cases hmem : lock ∈ q.holding t
    · cases hhead : s.holding_lock_list_ t with
      | none =>
        rw [R.holding.eq_nil hhead] at hmem
        cases hmem
      | some first =>
        obtain ⟨l, hl, hlinked⟩ := R.holding.eq_cons hhead
        rw [hl, List.length_cons] at hpasses
        rw [hl, List.mem_cons] at hmem
        have hbehind := hmem.resolve_left fun heq => hfirst (by rw [hhead, heq])
        have hshort : l.length < passes - 1 := by omega
        obtain ⟨xs, p, ys, hlist, hloop⟩ := takeOut_of_mem hlinked hbehind hshort
        have hunlink := unlink_of_takeOut hloop
        rw [Nat.sub_add_cancel (by omega)] at hunlink
        rw [hunlink]
        exact ⟨_, rfl, R.waiters, erase_lists R.holding (hl.trans hlist)⟩
    · have hunlink : State.unlink s.next_lock_on_holding_list_ lock passes (s.holding_lock_list_ t) =
          .ok s.next_lock_on_holding_list_ := by
        cases hhead : s.holding_lock_list_ t with
        | none =>
          obtain ⟨passes, rfl⟩ := Nat.exists_eq_succ_of_ne_zero (Nat.ne_of_gt (Nat.zero_lt_of_lt hpasses))
          rfl
        | some first =>
          obtain ⟨l, hl, hlinked⟩ := R.holding.eq_cons hhead
          rw [hl, List.length_cons] at hpasses
          rw [hl, List.mem_cons, not_or] at hmem
          have hshort : l.length < passes - 1 := by omega
          have hloop := unlink_of_takeOut (takeOut_of_notMem hlinked hmem.2 hshort)
          rwa [Nat.sub_add_cancel (by omega)] at hloop
      rw [hunlink, List.erase_of_not_mem hmem, update_eq_self]
      refine ⟨_, rfl, R.waiters, ?_⟩
      dsimp only
      rw [reset_lists R.holding fun u hin => hmem (hown u hin ▸ hin)]
      exact R.holding

/-! ### Runs -/

/-- How long the list is that the loop of a call walks over. -/
def Queues.walked (q : Queues T L) : Call T L → ℕ
  | .popBack _ lock => (q.waiters lock).length
  | .remove _ lock => (q.waiters lock).length
  | .release (some t) _ => (q.holding t).length
  | _ => 0

omit [DecidableEq T] in
theorem locked_spec {α : Type} {call : State T L → Except Stop (α × State T L)} {a : α} {q' : Queues T L} {t : Option T}
    {lock : L} (R : Represents s q) (hcall : ∀ s₁, Represents s₁ q → s₁.currentThread = t →
      s₁.waiters_list_lock_ lock = true → ∃ s₂, call s₁ = .ok (a, s₂) ∧ Represents s₂ q') :
    ∃ s', s.locked t lock call = .ok (a, s') ∧ Represents s' q' := by
  have hlock : update s.waiters_list_lock_ lock true lock = true := by rw [update_self]
  obtain ⟨s₂, hs₂, R₂⟩ := hcall
    { s with waiters_list_lock_ := update s.waiters_list_lock_ lock true, currentThread := t } ⟨R.waiters, R.holding⟩ rfl hlock
  rw [State.locked, hs₂]
  exact ⟨_, rfl, R₂.waiters, R₂.holding⟩

theorem call_spec (R : Represents s q) {c : Call T L} {passes : ℕ} (hc : q.Allowed c) (hpasses : q.walked c < passes) :
    ∃ s', s.call passes c = .ok (q.result c, s') ∧ Represents s' (q.call c) := by
  cases c with
  | pushFront t lock =>
    obtain ⟨u, rfl, hfree⟩ := hc
    rw [State.call]
    refine locked_spec R fun s₁ R₁ ht hlock => ?_
    obtain ⟨s', hs', R'⟩ := pushFront_spec R₁ ht hlock hfree
    rw [hs']
    exact ⟨s', rfl, R'⟩
  | popBack t lock => exact locked_spec R fun s₁ R₁ _ hlock => popBack_spec R₁ hlock hpasses
  | remove t lock =>
    cases t with
    | none =>
      rw [State.call]
      refine locked_spec R fun s₁ R₁ ht _ => ?_
      rw [State.removeCurrentThreadFromWaitersList, ht]
      exact ⟨s₁, rfl, R₁⟩
    | some t =>
      rw [State.call]
      refine locked_spec R fun s₁ R₁ ht hlock => ?_
      obtain ⟨s', hs', R'⟩ := remove_spec R₁ ht hlock hc.1 hc.2 hpasses
      rw [hs']
      exact ⟨s', rfl, R'⟩
  | hold t lock =>
    cases t with
    | none => exact ⟨_, rfl, R.waiters, R.holding⟩
    | some t =>
      have R' : Represents { s with currentThread := some t } q := ⟨R.waiters, R.holding⟩
      exact ⟨_, rfl, hold_spec R' rfl hc⟩
  | release t lock =>
    cases t with
    | none => exact ⟨_, rfl, R.waiters, R.holding⟩
    | some t =>
      have R' : Represents { s with currentThread := some t } q := ⟨R.waiters, R.holding⟩
      obtain ⟨s', hs', R''⟩ := release_spec R' rfl hc hpasses
      rw [State.call, hs']
      exact ⟨_, rfl, R''⟩

/-- The longest list that a loop walks over in a run. -/
def Queues.longest (q : Queues T L) : List (Call T L) → ℕ
  | [] => 0
  | c :: cs => max (q.walked c) ((q.call c).longest cs)

theorem calls_spec (R : Represents s q) {cs : List (Call T L)} {passes : ℕ} (hcs : q.AllAllowed cs)
    (hpasses : q.longest cs < passes) :
    ∃ s', s.calls passes cs = .ok ((q.calls cs).1, s') ∧ Represents s' (q.calls cs).2 := by
  induction cs generalizing q s with
  | nil => exact ⟨s, rfl, R⟩
  | cons c cs ih =>
    obtain ⟨hwalked, hlongest⟩ := Nat.max_lt.mp hpasses
    obtain ⟨s₁, hs₁, R₁⟩ := call_spec R hcs.1 hwalked
    obtain ⟨s₂, hs₂, R₂⟩ := ih R₁ hcs.2 hlongest
    refine ⟨s₂, ?_, R₂⟩
    rw [State.calls, hs₁]
    dsimp only [bind, Except.bind]
    rw [hs₂]
    rfl

/-- Any calls of threads that push themselves when they are on no list, and take themselves out where they are. -/
theorem lists_keep (h : Represents s q) {cs : List (Call T L)} (hcs : q.AllAllowed cs) : ∃ n, ∀ passes ≥ n,
    ∃ s', s.calls passes cs = .ok ((q.calls cs).1, s') ∧ Represents s' (q.calls cs).2 ∧
      (∀ lock, ((q.calls cs).2.waiters lock).Nodup) ∧ ∀ t, ((q.calls cs).2.holding t).Nodup := by
  refine ⟨q.longest cs + 1, fun passes hpasses => ?_⟩
  obtain ⟨s', hs', R⟩ := calls_spec h hcs hpasses
  exact ⟨s', hs', R, fun lock => (R.waiters.linked lock).nodup, fun t => (R.holding.linked t).nodup⟩

theorem lists_keep_three : ∃ n, ∀ passes ≥ n, ∃ s', (State.new ℕ ℕ).calls passes
    [.pushFront (some 1) 0, .pushFront (some 2) 0, .pushFront (some 3) 0, .remove (some 2) 0, .popBack none 0] =
      .ok ([none, none, none, none, some 1], s') ∧ s'.waiters_list_ 0 = some 3 := by
  have hall : (⟨fun _ => [], fun _ => []⟩ : Queues ℕ ℕ).AllAllowed
      [.pushFront (some 1) 0, .pushFront (some 2) 0, .pushFront (some 3) 0, .remove (some 2) 0, .popBack none 0] := by
    simp [Queues.AllAllowed, Queues.Allowed, Queues.call, update_apply]
  obtain ⟨n, hn⟩ := lists_keep (represents_new ℕ ℕ) hall
  refine ⟨n, fun passes hpasses => ?_⟩
  obtain ⟨s', hs', R, -⟩ := hn passes hpasses
  exact ⟨s', hs', (R.waiters.linked 0).1⟩

/-- A thread that pushes itself although it waits is linked to itself, and the next loop does not end. -/
theorem pushed_twice : ∃ s, (State.new ℕ ℕ).calls 0 [.pushFront (some 1) 0, .pushFront (some 1) 0] = .ok ([none, none], s) ∧
    (∀ q, ¬Represents s q) ∧ ∀ passes, s.call passes (.popBack none 0) = .error .passes := by
  refine ⟨_, rfl, fun q R => ?_, fun passes => ?_⟩
  · obtain ⟨l, hl, hlinked⟩ := R.waiters.eq_cons (k := 0) (a := 1) rfl
    have hagain : Linked _ (some 1) l := hlinked.2
    have heq := congrArg List.length (hagain.unique hlinked)
    rw [List.length_cons] at heq
    omega
  · have hloop : ∀ passes, State.beforeLast (update (update (fun _ => none) 1 none) 1 (some 1)) passes 1 = .error .passes := by
      intro passes
      induction passes with
      | zero => rfl
      | succ passes ih => exact ih
    exact congrArg (fun r => r >>= _) (congrArg (fun r => r >>= _) (hloop passes))

end KPanic.LockLists

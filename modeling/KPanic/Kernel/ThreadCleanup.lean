import Mathlib.Algebra.Group.Nat.Defs
import KPanic.Kernel.Scheduler

/-!
# The loop of `Scheduler::cleanupDeadThreads`

The loop erases from the list that it indexes, and steps its `uint32` index back. In front of the index
are always the threads that stay, so that the loop finds what `collect` finds.
-/

namespace KPanic.Scheduling

open Scheduler

/-- The list of threads: `addNewThread` is called once with a thread, and the elements are in one block
of the kernel heap, which gives out less than 2 GiB. -/
structure ThreadList where
  threads_ : List ℕ
  distinct : threads_.Nodup
  fits : 8 * threads_.length < 2 ^ 31

inductive CleanupError
  | pastDestroyList
  | endless
  deriving DecidableEq

/-- `thread_count` is the length of `destroy_list`. -/
def cleanupLoop (thread : ℕ → Thread) (thread_count_max : ℕ) : ℕ → List ℕ → List ℕ → ℕ →
    Except CleanupError (List ℕ × List ℕ)
  | 0, _, _, _ => .error .endless
  | passes + 1, threads_, destroy_list, i =>
    match threads_[i]? with
    | none => .ok (destroy_list, threads_)
    | some tmp =>
      if (thread tmp).state_ = .ToBeDestroyed then
        if destroy_list.length < thread_count_max then
          let threads_ := threads_.eraseIdx i
          let i := (i + (2 ^ 32 - 1)) % 2 ^ 32
          if destroy_list.length + 1 ≥ thread_count_max then .ok (destroy_list ++ [tmp], threads_)
          else
            cleanupLoop thread thread_count_max passes threads_ (destroy_list ++ [tmp]) ((i + 1) % 2 ^ 32)
        else .error .pastDestroyList
      else if destroy_list.length ≥ thread_count_max then .ok (destroy_list, threads_)
      else cleanupLoop thread thread_count_max passes threads_ destroy_list ((i + 1) % 2 ^ 32)

/-- The threads that `cleanupDeadThreads` deletes, in this order, and the list that it leaves. -/
def cleanupList (thread : ℕ → Thread) (threads_ : List ℕ) : Except CleanupError (List ℕ × List ℕ) :=
  let thread_count_max := threads_.length % 2 ^ 32
  let thread_count_max := if thread_count_max > 1024 then 1024 else thread_count_max
  cleanupLoop thread thread_count_max (threads_.length + 1) threads_ [] 0

variable {thread : ℕ → Thread} {kept rest destroy_list ts : List ℕ} {n passes thread_count_max : ℕ}

def isDead (thread : ℕ → Thread) (t : ℕ) : Bool := (thread t).state_ = .ToBeDestroyed

theorem isDead_eq_true {t : ℕ} : isDead thread t = true ↔ (thread t).state_ = .ToBeDestroyed := by
  rw [isDead, decide_eq_true_iff]

/-! ### The loop -/

/-- The index after the step back and the step of the loop. -/
theorem step_back_forth {i : ℕ} (hi : i < 2 ^ 32) : ((i + (2 ^ 32 - 1)) % 2 ^ 32 + 1) % 2 ^ 32 = i := by
  omega

/-- `collect` is the loop, where the list in front of the index stays. -/
theorem cleanupLoop_eq (thread : ℕ → Thread) (kept : List ℕ) (hcount : destroy_list.length < thread_count_max)
    (hfits : kept.length + rest.length < 2 ^ 32) (hpasses : rest.length < passes) :
    cleanupLoop thread thread_count_max passes (kept ++ rest) destroy_list kept.length =
      .ok (destroy_list ++ (collect thread (thread_count_max - destroy_list.length) rest).1,
        kept ++ (collect thread (thread_count_max - destroy_list.length) rest).2) := by
  induction rest generalizing kept destroy_list passes with
  | nil =>
    cases passes with
    | zero => cases hpasses
    | succ passes => simp [cleanupLoop, collect]
  | cons t rest ih =>
    cases passes with
    | zero => cases hpasses
    | succ passes =>
      have hpasses' : rest.length < passes := Nat.lt_of_succ_lt_succ hpasses
      have hat : (kept ++ t :: rest)[kept.length]? = some t := by simp
      have herase : (kept ++ t :: rest).eraseIdx kept.length = kept ++ rest := by
        simp [List.eraseIdx_append_of_length_le]
      rw [List.length_cons] at hfits
      rw [cleanupLoop, hat, collect]
      dsimp only
      by_cases hdead : (thread t).state_ = .ToBeDestroyed
      · rw [if_pos hdead, if_pos hcount, if_pos hdead, herase]
        by_cases hlast : destroy_list.length + 1 ≥ thread_count_max
        · have hone : thread_count_max - destroy_list.length ≤ 1 := by omega
          rw [if_pos hlast, if_pos hone]
        · have hmore : ¬thread_count_max - destroy_list.length ≤ 1 := by omega
          have hkept : kept.length < 2 ^ 32 := by omega
          have hcount' : (destroy_list ++ [t]).length < thread_count_max := by
            rw [List.length_append, List.length_singleton]
            omega
          have hn : thread_count_max - (destroy_list ++ [t]).length =
              thread_count_max - destroy_list.length - 1 := by
            rw [List.length_append, List.length_singleton, Nat.sub_sub]
          rw [if_neg hlast, if_neg hmore, step_back_forth hkept, ih _ hcount' (by omega) hpasses', hn]
          simp
      · have hroom : ¬destroy_list.length ≥ thread_count_max := by omega
        have hn : thread_count_max - destroy_list.length ≠ 0 := by omega
        have hstep : (kept.length + 1) % 2 ^ 32 = (kept ++ [t]).length := by
          rw [List.length_append, List.length_singleton]
          omega
        have hfits' : (kept ++ [t]).length + rest.length < 2 ^ 32 := by
          rw [List.length_append, List.length_singleton]
          omega
        have hih := ih _ hcount hfits' hpasses'
        rw [if_neg hdead, if_neg hroom, if_neg hdead, if_neg hn, hstep]
        simpa using hih

theorem cleanupList_eq (l : ThreadList) :
    cleanupList thread l.threads_ = .ok (collect thread (min l.threads_.length 1024) l.threads_) := by
  have hfits : l.threads_.length < 2 ^ 32 := by
    have h := l.fits
    omega
  have hmax : (if l.threads_.length % 2 ^ 32 > 1024 then 1024 else l.threads_.length % 2 ^ 32) =
      min l.threads_.length 1024 := by
    rw [Nat.mod_eq_of_lt hfits]
    split <;> omega
  rw [cleanupList, hmax]
  cases hl : l.threads_ with
  | nil => rfl
  | cons t ts =>
    rw [hl] at hfits
    have hcount : ([] : List ℕ).length < min (t :: ts).length 1024 := by
      rw [List.length_nil, List.length_cons]
      omega
    have hloop := cleanupLoop_eq thread [] hcount (by simpa using hfits)
      (Nat.lt_succ_self (t :: ts).length)
    simpa using hloop

/-! ### What `collect` finds -/

theorem collect_destroyed (hn : 0 < n) : (collect thread n ts).1 = (ts.filter (isDead thread)).take n := by
  induction ts generalizing n with
  | nil => simp [collect]
  | cons t ts ih =>
    rw [collect]
    by_cases hdead : (thread t).state_ = .ToBeDestroyed
    · rw [if_pos hdead, List.filter_cons_of_pos (isDead_eq_true.mpr hdead)]
      by_cases hlast : n ≤ 1
      · obtain rfl : n = 1 := by omega
        rw [if_pos hlast, List.take_succ_cons, List.take_zero]
      · obtain ⟨n, rfl⟩ : ∃ m, n = m + 1 := ⟨n - 1, by omega⟩
        have hpos : 0 < n := by omega
        rw [if_neg hlast, List.take_succ_cons]
        dsimp only
        rw [Nat.add_sub_cancel, ih hpos]
    · rw [if_neg hdead, if_neg hn.ne', List.filter_cons_of_neg (mt isDead_eq_true.mp hdead)]
      exact ih hn

theorem collect_left (hdistinct : ts.Nodup) :
    (collect thread n ts).2 = ts.filter fun t => t ∉ (collect thread n ts).1 := by
  induction ts generalizing n with
  | nil => rfl
  | cons t ts ih =>
    obtain ⟨hnew, hrest⟩ := List.nodup_cons.mp hdistinct
    -- `t` is not in the rest of the list, and so not among what is found there
    have hother : ∀ m, t ∉ (collect thread m ts).1 := fun m ht =>
      hnew ((collect_perm thread m ts).subset (List.mem_append_left _ ht))
    have hskip : ∀ ds : List ℕ, ts.filter (fun x => x ∉ t :: ds) = ts.filter fun x => x ∉ ds := by
      intro ds
      apply List.filter_congr
      intro x hx
      have hne : x ≠ t := fun h => hnew (h ▸ hx)
      simp [hne]
    rw [collect]
    by_cases hdead : (thread t).state_ = .ToBeDestroyed
    · rw [if_pos hdead]
      by_cases hlast : n ≤ 1
      · rw [if_pos hlast]
        dsimp only
        rw [List.filter_cons_of_neg (by simp), hskip]
        simp
      · rw [if_neg hlast]
        dsimp only
        rw [List.filter_cons_of_neg (by simp), hskip]
        exact ih hrest
    · rw [if_neg hdead]
      by_cases hn : n = 0
      · rw [if_pos hn]
        simp
      · rw [if_neg hn]
        dsimp only
        rw [List.filter_cons_of_pos (by simpa using hother n)]
        exact congrArg (t :: ·) (ih hrest)

/-! ### One call -/

/-- `destroyed` are the first dead threads of the list, as many as `destroy_list` has room for, and
`left` are the other threads. -/
structure Cleaned (thread : ℕ → Thread) (threads_ destroyed left : List ℕ) : Prop where
  first : destroyed = (threads_.filter (isDead thread)).take (min threads_.length 1024)
  count : destroyed.length = min (threads_.filter (isDead thread)).length (min threads_.length 1024)
  once : destroyed.Nodup
  others : left = threads_.filter fun t => t ∉ destroyed
  gone : ∀ t ∈ destroyed, t ∉ left

end KPanic.Scheduling

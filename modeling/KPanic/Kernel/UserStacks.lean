import KPanic.Lib.Machine
import KPanic.Mm.Kernel

/-!
# `common/source/kernel/UserProcess.cpp`: where the stacks of a process lie

`ASLRStackManager` draws addresses until one passes its test against the stacks that are there.
The test asks four comparisons at once, so it refuses a draw only if the two stacks almost coincide.
-/

namespace KPanic.Stacks

open Std (TreeMap)
open Machine

structure UserStackInfo where
  start_address_ : ℕ
  end_address_ : ℕ
  deriving DecidableEq

/-- `thread_list_` has the `stack_start_addr_` of each thread. -/
structure UserProcess where
  thread_list_ : TreeMap ℕ ℕ
  user_stack_list_ : TreeMap ℕ UserStackInfo
  next_tid_ : ℕ
  called_exit_ : Bool

/-! ### The draws -/

/-- One pass of the generator, in `uint64`. -/
def pass (x : ℕ) : ℕ := (378 * x + 2310) % 2 ^ 64 % STACK_SPACE_START

/-- The generator's value for a reading of the time stamp counter. -/
def mersenneTwister (tsc : BitVec 64) : ℕ := pass^[10] tsc.toNat

/-- `new_start` before the tests. -/
def draw (tsc : BitVec 64) : ℕ := (mersenneTwister tsc % STACK_SPACE_START) >>> 12 <<< 12

def inConflict (new_start new_end : ℕ) (s2check : UserStackInfo) : Bool :=
  new_start < s2check.start_address_ + PAGE_SIZE &&
  new_start > s2check.end_address_ - PAGE_SIZE &&
  new_end < s2check.start_address_ + PAGE_SIZE &&
  new_end > s2check.end_address_ - PAGE_SIZE

/-- The draws that the loop rejects. -/
def rejected (user_stack_list_ : TreeMap ℕ UserStackInfo) (new_start : ℕ) : Bool :=
  new_start < STACK_SPACE_END + STACK_MAX_SIZE ||
    user_stack_list_.toList.any fun elem => inConflict new_start (new_start - STACK_MAX_SIZE) elem.2

/-- The loop, for the readings of the counter that it makes; `none` if they do not suffice. -/
def newStart (user_stack_list_ : TreeMap ℕ UserStackInfo) : List (BitVec 64) → Option ℕ
  | [] => none
  | tsc :: tscs =>
    if rejected user_stack_list_ (draw tsc) then newStart user_stack_list_ tscs else some (draw tsc)

/-! ### The operations -/

/-- What stops the kernel, or does not happen. -/
inductive Failure
  | stackOutside
  | noSuchThread
  | stillDrawing
  deriving DecidableEq

def ASLRStackManager (p : UserProcess) (tid : ℕ) (tscs : List (BitVec 64)) :
    Except Failure (ℕ × UserProcess) :=
  match newStart p.user_stack_list_ tscs with
  | none => .error .stillDrawing
  | some new_start =>
    if new_start ≤ STACK_SPACE_START ∧ new_start - STACK_MAX_SIZE ≥ STACK_SPACE_END then
      .ok (new_start, { p with
        user_stack_list_ := p.user_stack_list_.insert tid ⟨new_start, new_start - STACK_MAX_SIZE⟩ })
    else .error .stackOutside

/-- The loop of `allocNextFreeTID`; it passes each thread at most once. -/
def nextFreeTID (thread_list_ : TreeMap ℕ ℕ) : ℕ → ℕ → ℕ
  | 0, tid => tid
  | passes + 1, tid =>
    if thread_list_.contains tid then nextFreeTID thread_list_ passes (tid + 1) else tid

def allocNextFreeTID (p : UserProcess) : ℕ × UserProcess :=
  let tid := nextFreeTID p.thread_list_ p.thread_list_.size p.next_tid_
  (tid, { p with next_tid_ := tid + 1 })

/-- `internalAddNewThread`, for a thread with a stack of its own. -/
def addNewThread (p : UserProcess) (tscs : List (BitVec 64)) : Except Failure UserProcess := do
  if p.called_exit_ then return p
  let (tid, p) := allocNextFreeTID p
  let (stack_start_addr_, p) ← ASLRStackManager p tid tscs
  return { p with thread_list_ := p.thread_list_.insert tid stack_start_addr_ }

/-- `onThreadDestroyed` -/
def onThreadDestroyed (p : UserProcess) (tid : ℕ) : Except Failure UserProcess :=
  if p.thread_list_.contains tid then
    .ok { p with
      thread_list_ := p.thread_list_.erase tid
      user_stack_list_ := p.user_stack_list_.erase tid }
  else .error .noSuchThread

/-- `restructureUserThread` -/
def restructureUserThread (p : UserProcess) (tid : ℕ) (tscs : List (BitVec 64)) :
    Except Failure UserProcess := do
  if p.thread_list_.contains tid = false then throw .noSuchThread
  let (stack_start_addr_, p) ← ASLRStackManager p tid tscs
  return { p with thread_list_ := p.thread_list_.insert tid stack_start_addr_ }

/-- `address` is in the stack that starts at `stack_start_addr`. -/
def within (address stack_start_addr : ℕ) : Bool :=
  address ≤ stack_start_addr && address > stack_start_addr - STACK_MAX_SIZE

def addrIsWithinAnyUserStack (p : UserProcess) (address : ℕ) : Option (ℕ × ℕ) :=
  if address > STACK_SPACE_START ∨ address < STACK_SPACE_END then none
  else p.thread_list_.toList.find? fun thread => within address thread.2

inductive Op
  | createThread (tscs : List (BitVec 64))
  | threadDestroyed (tid : ℕ)
  | restructure (tid : ℕ) (tscs : List (BitVec 64))
  | exit

def step (p : UserProcess) : Op → Except Failure (UserProcess × List Empty)
  | .createThread tscs => (·, []) <$> addNewThread p tscs
  | .threadDestroyed tid => (·, []) <$> onThreadDestroyed p tid
  | .restructure tid tscs => (·, []) <$> restructureUserThread p tid tscs
  | .exit => .ok ({ p with called_exit_ := true }, [])

/-- A new process. -/
def created : UserProcess := ⟨∅, ∅, 0, false⟩

/-- The child of `fork`, whose thread has the stack of the parent's thread. -/
def forked (next_tid_ tid start : ℕ) : UserProcess :=
  ⟨(∅ : TreeMap ℕ ℕ).insert tid start,
    (∅ : TreeMap ℕ UserStackInfo).insert tid ⟨start, start - STACK_MAX_SIZE⟩, next_tid_, false⟩

/-! ### Disjointness -/

variable {p p' p₀ : UserProcess} {tid start a b : ℕ} {tscs : List (BitVec 64)} {tr : List Empty}

/-- Two stacks that start at `a` and at `b` have no address in common. -/
def Apart (a b : ℕ) : Prop := a + STACK_MAX_SIZE ≤ b ∨ b + STACK_MAX_SIZE ≤ a

theorem Apart.symm (h : Apart a b) : Apart b a := Or.symm h

theorem not_within_both (h : Apart a b) {address : ℕ} (ha : within address a = true) :
    within address b = false := by
  simp only [within, Bool.and_eq_true, decide_eq_true_eq] at ha
  simp only [within, Bool.and_eq_false_iff, decide_eq_false_iff_not]
  unfold Apart at h
  omega

/-- The addresses that a stack may start at. -/
def InSpace (start : ℕ) : Prop := STACK_SPACE_END + STACK_MAX_SIZE ≤ start ∧ start ≤ STACK_SPACE_START

structure StacksInv (p : UserProcess) : Prop where
  space : ∀ {tid : ℕ} {info : UserStackInfo}, p.user_stack_list_[tid]? = some info →
    InSpace info.start_address_ ∧ info.end_address_ = info.start_address_ - STACK_MAX_SIZE
  apart : ∀ {tid tid' : ℕ} {info info' : UserStackInfo}, p.user_stack_list_[tid]? = some info →
    p.user_stack_list_[tid']? = some info' → tid ≠ tid' →
    Apart info.start_address_ info'.start_address_
  threads : ∀ {tid start : ℕ}, p.thread_list_[tid]? = some start →
    ∃ info : UserStackInfo, p.user_stack_list_[tid]? = some info ∧ info.start_address_ = start

/-- The draws that a call makes: each one that is in the stack space either is the start of a stack
that is there, or is at least the size of a stack away from the starts of the other threads. -/
def Spread (user_stack_list_ : TreeMap ℕ UserStackInfo) (tid : ℕ) (tscs : List (BitVec 64)) : Prop :=
  ∀ tsc ∈ tscs, InSpace (draw tsc) →
    (∃ (tid' : ℕ) (info : UserStackInfo), user_stack_list_[tid']? = some info ∧ draw tsc = info.start_address_) ∨
    ∀ (tid' : ℕ) (info : UserStackInfo), tid' ≠ tid → user_stack_list_[tid']? = some info →
      Apart (draw tsc) info.start_address_

/-- The condition on a step. -/
def StepSpread (p : UserProcess) : Op → Prop
  | .createThread tscs => p.called_exit_ = false →
    Spread p.user_stack_list_ (allocNextFreeTID p).1 tscs
  | .restructure tid tscs => Spread p.user_stack_list_ tid tscs
  | .threadDestroyed _ | .exit => True

theorem draw_le (tsc : BitVec 64) : draw tsc ≤ STACK_SPACE_START := by
  have hlt : mersenneTwister tsc % STACK_SPACE_START < STACK_SPACE_START := Nat.mod_lt _ (by decide)
  unfold draw
  rw [Nat.shiftLeft_eq, Nat.shiftRight_eq_div_pow]
  omega

-- the generator is not to be evaluated in proofs
attribute [irreducible] draw

theorem rejected_of_start {info : UserStackInfo} {list : TreeMap ℕ UserStackInfo}
    (h : list[tid]? = some info) (hspace : InSpace info.start_address_)
    (hend : info.end_address_ = info.start_address_ - STACK_MAX_SIZE) :
    rejected list info.start_address_ = true := by
  unfold rejected
  rw [Bool.or_eq_true]
  right
  rw [List.any_eq_true]
  refine ⟨(tid, info), TreeMap.mem_toList_iff_getElem?_eq_some.mpr h, ?_⟩
  have hbig : 0x2AAAAAAB4AAA ≤ info.start_address_ := hspace.1
  have hpage : PAGE_SIZE = 4096 := rfl
  have hmax : STACK_MAX_SIZE = 0xA000 := rfl
  simp only [inConflict, hend, Bool.and_eq_true, decide_eq_true_eq, hpage, hmax]
  omega

/-- What the loop ends with. -/
theorem newStart_spec {list : TreeMap ℕ UserStackInfo} (h : newStart list tscs = some start) :
    rejected list start = false ∧ ∃ tsc ∈ tscs, draw tsc = start := by
  induction tscs with
  | nil => cases h
  | cons tsc tscs ih =>
    rw [newStart] at h
    split at h
    · obtain ⟨hrej, t, ht, hdraw⟩ := ih h
      exact ⟨hrej, t, List.mem_cons_of_mem _ ht, hdraw⟩
    · rename_i hacc
      cases h
      exact ⟨Bool.not_eq_true _ ▸ hacc, tsc, List.mem_cons_self, rfl⟩

theorem inSpace_of_accepted {list : TreeMap ℕ UserStackInfo} (h : newStart list tscs = some start) :
    InSpace start := by
  obtain ⟨hrej, tsc, -, rfl⟩ := newStart_spec h
  unfold rejected at hrej
  rw [Bool.or_eq_false_iff, decide_eq_false_iff_not, Nat.not_lt] at hrej
  exact ⟨hrej.1, draw_le tsc⟩

/-- An accepted draw is apart from the stacks of the other threads. -/
theorem apart_of_accepted (I : StacksInv p) (h : newStart p.user_stack_list_ tscs = some start)
    (hspread : Spread p.user_stack_list_ tid tscs) {tid' : ℕ} {info : UserStackInfo} (hne : tid' ≠ tid)
    (hinfo : p.user_stack_list_[tid']? = some info) : Apart start info.start_address_ := by
  obtain ⟨hrej, tsc, hmem, rfl⟩ := newStart_spec h
  obtain ⟨t, i, hi, hdraw⟩ | hall := hspread tsc hmem (inSpace_of_accepted h)
  · have hspace := I.space hi
    rw [hdraw, rejected_of_start hi hspace.1 hspace.2] at hrej
    cases hrej
  · exact hall tid' info hne hinfo

theorem StacksInv.aslr (I : StacksInv p) (hspread : Spread p.user_stack_list_ tid tscs)
    (h : ASLRStackManager p tid tscs = .ok (start, p')) :
    StacksInv { p' with thread_list_ := p'.thread_list_.insert tid start } := by
  unfold ASLRStackManager at h
  split at h
  · cases h
  · rename_i new_start hnew
    split at h
    · cases h
      have hspace := inSpace_of_accepted hnew
      constructor
      · intro t info ht
        rw [TreeMap.getElem?_insert] at ht
        split at ht
        · cases ht
          exact ⟨hspace, rfl⟩
        · exact I.space ht
      · intro t t' info info' ht ht' hne
        rw [TreeMap.getElem?_insert] at ht ht'
        simp only [compare_eq_iff_eq] at ht ht'
        split at ht
        · split at ht'
          · omega
          · cases ht
            exact apart_of_accepted I hnew hspread (by omega) ht'
        · split at ht'
          · cases ht'
            exact (apart_of_accepted I hnew hspread (by omega) ht).symm
          · exact I.apart ht ht' hne
      · intro t s ht
        rw [TreeMap.getElem?_insert] at ht ⊢
        split at ht
        · rename_i hcmp
          cases ht
          rw [if_pos hcmp]
          exact ⟨_, rfl, rfl⟩
        · rename_i hcmp
          rw [if_neg hcmp]
          exact I.threads ht
    · cases h

theorem StacksInv.destroyed (I : StacksInv p) : StacksInv { p with
    thread_list_ := p.thread_list_.erase tid
    user_stack_list_ := p.user_stack_list_.erase tid } := by
  have hsome : ∀ {t : ℕ} {info : UserStackInfo}, (p.user_stack_list_.erase tid)[t]? = some info →
      p.user_stack_list_[t]? = some info := by
    intro t info ht
    rw [TreeMap.getElem?_erase] at ht
    split at ht
    · cases ht
    · exact ht
  constructor
  · exact fun ht => I.space (hsome ht)
  · exact fun ht ht' hne => I.apart (hsome ht) (hsome ht') hne
  · intro t s ht
    rw [TreeMap.getElem?_erase] at ht ⊢
    split at ht
    · cases ht
    · rename_i hcmp
      rw [if_neg hcmp]
      exact I.threads ht

theorem StacksInv.congr (I : StacksInv p) (hlist : p'.user_stack_list_ = p.user_stack_list_)
    (hthreads : p'.thread_list_ = p.thread_list_) : StacksInv p' := by
  obtain ⟨hspace, hapart, hthr⟩ := I
  rw [← hlist] at hspace hapart hthr
  rw [← hthreads] at hthr
  exact ⟨hspace, hapart, hthr⟩

theorem StacksInv.step {op : Op} {evs : List Empty} (I : StacksInv p) (hspread : StepSpread p op)
    (h : step p op = .ok (p', evs)) : StacksInv p' := by
  cases op with
  | createThread tscs =>
    cases hr : addNewThread p tscs with
    | error e =>
      rw [Stacks.step, hr] at h
      cases h
    | ok q =>
      rw [Stacks.step, hr] at h
      cases h
      unfold addNewThread at hr
      cases hexit : p.called_exit_ with
      | true =>
        rw [hexit] at hr
        cases hr
        exact I
      | false =>
        rw [hexit] at hr
        cases hm : ASLRStackManager (allocNextFreeTID p).2 (allocNextFreeTID p).1 tscs with
        | error e =>
          simp [hm, bind, Except.bind] at hr
        | ok r =>
          simp only [hm, bind, Except.bind, pure, Except.pure] at hr
          cases hr
          have hI : StacksInv (allocNextFreeTID p).2 := I.congr rfl rfl
          exact hI.aslr (hspread hexit) hm
  | threadDestroyed tid =>
    rw [Stacks.step, onThreadDestroyed] at h
    split at h
    · cases h
      exact I.destroyed
    · cases h
  | restructure tid tscs =>
    cases hr : restructureUserThread p tid tscs with
    | error e =>
      rw [Stacks.step, hr] at h
      cases h
    | ok q =>
      rw [Stacks.step, hr] at h
      cases h
      unfold restructureUserThread at hr
      cases hc : p.thread_list_.contains tid with
      | false =>
        rw [hc] at hr
        cases hr
      | true =>
        rw [hc] at hr
        cases hm : ASLRStackManager p tid tscs with
        | error e => simp [hm, bind, Except.bind] at hr
        | ok r =>
          simp only [hm, bind, Except.bind, pure, Except.pure] at hr
          cases hr
          exact I.aslr hspread hm
  | exit =>
    cases h
    exact I.congr rfl rfl

theorem created_inv : StacksInv created := by
  constructor
  · intro tid info h
    simp [created] at h
  · intro tid tid' info info' h
    simp [created] at h
  · intro tid start h
    simp [created] at h

theorem forked_inv {next_tid_ : ℕ} (h : InSpace start) : StacksInv (forked next_tid_ tid start) := by
  have hempty : StacksInv ⟨∅, ∅, next_tid_, false⟩ := created_inv.congr rfl rfl
  constructor
  · intro t info ht
    rw [forked, TreeMap.getElem?_insert] at ht
    split at ht
    · cases ht
      exact ⟨h, rfl⟩
    · exact hempty.space ht
  · intro t t' info info' ht ht' hne
    simp only [forked, TreeMap.getElem?_insert, compare_eq_iff_eq] at ht ht'
    split at ht
    · split at ht'
      · omega
      · simp at ht'
    · simp at ht
  · intro t s ht
    rw [forked, TreeMap.getElem?_insert] at ht ⊢
    split at ht
    · rename_i hcmp
      cases ht
      rw [if_pos hcmp]
      exact ⟨_, rfl, rfl⟩
    · simp at ht

/-- A process as it is created, or as `fork` makes it. -/
def Start (p : UserProcess) : Prop :=
  p = created ∨ ∃ next_tid_ tid start, InSpace start ∧ p = forked next_tid_ tid start

theorem stacksInv (h₀ : Start p₀) (h : Runs step StepSpread p₀ tr p) : StacksInv p := by
  refine h.invariant (I := fun _ p => StacksInv p) ?_ fun I hok hs => I.step hok hs
  obtain rfl | ⟨next_tid_, tid, start, hstart, rfl⟩ := h₀
  · exact created_inv
  · exact forked_inv hstart

/-- The addresses of a stack. -/
def UserStackInfo.has (info : UserStackInfo) (address : ℕ) : Prop :=
  info.end_address_ ≤ address ∧ address < info.start_address_

/-- An address belongs to the stack of one thread at most. -/
def OneStack (p : UserProcess) : Prop :=
  ∀ address tid tid' start start' : ℕ, p.thread_list_[tid]? = some start →
    p.thread_list_[tid']? = some start' → within address start = true →
    within address start' = true → tid = tid'

/-- No two stacks in `user_stack_list_` overlap. -/
def NoOverlap (p : UserProcess) : Prop :=
  ∀ (tid tid' : ℕ) (info info' : UserStackInfo), p.user_stack_list_[tid]? = some info →
    p.user_stack_list_[tid']? = some info' → tid ≠ tid' →
    ∀ address, ¬(info.has address ∧ info'.has address)

theorem stacks_disjoint (h₀ : Start p₀) (h : Runs step StepSpread p₀ tr p) :
    NoOverlap p ∧
    (∀ (tid : ℕ) (info : UserStackInfo), p.user_stack_list_[tid]? = some info →
      STACK_SPACE_END ≤ info.end_address_ ∧ info.end_address_ < info.start_address_ ∧
      info.start_address_ ≤ STACK_SPACE_START) ∧
    OneStack p := by
  have I := stacksInv h₀ h
  have hmax : STACK_MAX_SIZE = 0xA000 := rfl
  refine ⟨fun tid tid' info info' hi hi' hne address => ?_, fun tid info hi => ?_, ?_⟩
  · have hapart := I.apart hi hi' hne
    obtain ⟨⟨hlow, -⟩, hend⟩ := I.space hi
    obtain ⟨⟨hlow', -⟩, hend'⟩ := I.space hi'
    unfold Apart at hapart
    unfold UserStackInfo.has
    rw [hend, hend']
    omega
  · obtain ⟨⟨hlow, hhigh⟩, hend⟩ := I.space hi
    rw [hend]
    omega
  · intro address tid tid' _ _ ht ht' hw hw'
    by_contra hne
    obtain ⟨info, hi, rfl⟩ := I.threads ht
    obtain ⟨info', hi', rfl⟩ := I.threads ht'
    rw [not_within_both (I.apart hi hi' hne) hw] at hw'
    cases hw'

theorem stacks_disjoint_two : ∃ p tr,
    Runs step StepSpread (forked 1 0 0x55b69a1a8000) tr p ∧ p.thread_list_.toList.length = 2 ∧
    OneStack p := by
  have hdraw : draw 10000000000000#64 = 0x3b3b6da5c000 := by decide +kernel
  have hspread : StepSpread (forked 1 0 0x55b69a1a8000) (.createThread [10000000000000#64]) := by
    intro _ tsc htsc _
    right
    intro tid info hne hinfo
    rw [List.mem_singleton.mp htsc, hdraw]
    rw [forked, TreeMap.getElem?_insert] at hinfo
    split at hinfo
    · cases hinfo
      exact .inl (by decide)
    · simp at hinfo
  have hrun : (match step (forked 1 0 0x55b69a1a8000) (.createThread [10000000000000#64]) with
      | .ok (p, _) => p.thread_list_.toList.length == 2
      | .error _ => false) = true := by decide +kernel
  split at hrun
  · rename_i p tr hstep
    have h : Runs step StepSpread (forked 1 0 0x55b69a1a8000) ([] ++ tr) p :=
      .next .start hspread hstep
    have hstart : Start (forked 1 0 0x55b69a1a8000) := .inr ⟨1, 0, _, ⟨by decide, by decide⟩, rfl⟩
    exact ⟨p, _, h, beq_iff_eq.mp hrun, (stacks_disjoint hstart h).2.2⟩
  · cases hrun

/-- Two threads of a new process get stacks that start eight pages apart, for these readings of the
time stamp counter; an address is in both. -/
theorem stacks_overlap : ∃ p tr, Runs step (fun _ _ => True) created tr p ∧
    ¬NoOverlap p ∧ ¬OneStack p := by
  have hrun : (match exec step created
        [.createThread [10000000000000#64], .createThread [30599364597147#64]] with
      | .ok (p, _) =>
        p.user_stack_list_[0]? == some ⟨0x3b3b6da5c000, 0x3b3b6da52000⟩ &&
        p.user_stack_list_[1]? == some ⟨0x3b3b6da64000, 0x3b3b6da5a000⟩ &&
        p.thread_list_[0]? == some 0x3b3b6da5c000 && p.thread_list_[1]? == some 0x3b3b6da64000
      | .error _ => false) = true := by decide +kernel
  split at hrun
  · rename_i p tr hexec
    simp only [Bool.and_eq_true, beq_iff_eq] at hrun
    obtain ⟨⟨⟨hinfo, hinfo'⟩, hstart⟩, hstart'⟩ := hrun
    refine ⟨p, tr, runs_of_exec step created _ hexec, fun h => ?_, fun h => ?_⟩
    · exact h 0 1 _ _ hinfo hinfo' (by decide) 0x3b3b6da5b000
        ⟨⟨by decide, by decide⟩, by decide, by decide⟩
    · have heq := h 0x3b3b6da5b000 0 1 _ _ hstart hstart' (by decide) (by decide)
      cases heq
  · cases hrun

end KPanic.Stacks

import KPanic.Kernel.StackGrowth
import KPanic.Lib.Ensures

/-!
# The pages of user stacks

As long as stacks keep their distance and a forked thread knows the pages of its stack, a thread
counts the pages of its stack, and every fault in the stack maps the next one.
-/

namespace KPanic.StackGrowth

open Std (TreeMap)
open Function
open Machine
open Fallible

variable {s u : Kernel} {p q : UserProcess} {t t' : UserThread} {memory memory' : ArchMemory}
  {threads threads' : TreeMap ℕ UserThread} {pid tid tid' address i j n vpn : ℕ} {start a b : StackStart}
  {pages : List Ppn} {e : PageTableEntry} {evs : List Event} {tr : List Event} {content : Content}

/-- The number of consecutive pages that are mapped directly below page `vpn`. -/
def mappedBelow (memory : ArchMemory) : ℕ → ℕ
  | 0 => 0
  | vpn + 1 => if memory.contains vpn then mappedBelow memory vpn + 1 else 0

/-- The page above a stack. -/
def top (start : StackStart) : ℕ := start.val / PAGE_SIZE

/-- A page at least is between two stacks. -/
def Far (a b : StackStart) : Prop :=
  a.val + (STACK_MAX_SIZE + PAGE_SIZE) ≤ b.val ∨ b.val + (STACK_MAX_SIZE + PAGE_SIZE) ≤ a.val

/-- Neither the pages of the stack nor the page below them are mapped. -/
def Room (memory : ArchMemory) (start : StackStart) : Prop :=
  ∀ i, 1 ≤ i → i ≤ STACK_MAX_PAGES + 1 → top start - i ∉ memory

/-- The condition on a step: a new stack has room and is far from those of the other threads, the
memory for the thread that `fork` creates has the right `stack_pages_` by accident, and faults
are in the stack of a running thread, not at its lowest byte. -/
def StepOk (s : Kernel) : Label → Prop
  | .createThread pid tid start _ => ∀ p t, s.running pid tid = some (p, t) →
    Room p.arch_memory_ start ∧
    ∀ (tid' : ℕ) t', p.thread_list_[tid']? = some t' → Far start t'.stack_start_addr_
  | .fork pid tid garbage => ∀ p t, s.running pid tid = some (p, t) →
    garbage.stack_pages_ = t.stack_pages_
  | .execv pid tid _ start _ => ∀ p t, s.running pid tid = some (p, t) →
    ∀ (tid' : ℕ) t', tid' ≠ tid → p.thread_list_[tid']? = some t' → Far start t'.stack_start_addr_
  | .access pid tid address _ _ _ => ∀ p t, s.running pid tid = some (p, t) →
    ∃ tid' t', s.running pid tid' = some (p, t') ∧
      Stacks.within address t'.stack_start_addr_ = true
  | .createProcess _ _ | .exitThread _ _ | .exit _ _ | .threadDestroyed _ _ => True

/-! ### Pages and addresses -/

theorem top_space (start : StackStart) : 2 ^ 33 ≤ top start ∧ top start < argsVpn := by
  obtain ⟨v, -, hlow, hhigh⟩ := start
  have hargs : argsVpn = 0x7fffffffe := by decide
  simp only [STACK_SPACE_END, STACK_MAX_SIZE, STACK_SPACE_START] at hlow hhigh
  simp only [top, PAGE_SIZE, hargs]
  omega

/-- Stacks that are far apart have no page in common, nor are they next to each other. -/
theorem Far.page_ne (h : Far a b) (hi : 1 ≤ i) (hi' : i ≤ STACK_MAX_PAGES + 1) (hj : 1 ≤ j)
    (hj' : j ≤ STACK_MAX_PAGES + 1) : top a - i ≠ top b - j := by
  have ha := (top_space a).1
  have hb := (top_space b).1
  have haligned := a.property.1
  have hbligned := b.property.1
  unfold Far at h
  unfold top at *
  generalize a.val = x at *
  generalize b.val = y at *
  simp only [PAGE_SIZE, STACK_MAX_SIZE, STACK_MAX_PAGES] at *
  omega

theorem Far.symm (h : Far a b) : Far b a := Or.symm h

theorem Far.not_within (h : Far a b) (ha : Stacks.within address a = true) :
    Stacks.within address b = false := by
  refine Stacks.not_within_both ?_ ha
  unfold Far at h
  unfold Stacks.Apart
  omega

theorem range_of_within (h : Stacks.within address start = true) :
    STACK_SPACE_END ≤ address ∧ address ≤ STACK_SPACE_START := by
  obtain ⟨-, hlow, hhigh⟩ := start.property
  simp only [Stacks.within, Bool.and_eq_true, decide_eq_true_eq] at h
  omega

/-- The page of an address in a stack. -/
theorem page_of_within (h : Stacks.within address start = true) (hlt : address < start.val) :
    ∃ i, 1 ≤ i ∧ i ≤ STACK_MAX_PAGES ∧ address / PAGE_SIZE = top start - i := by
  have htop := (top_space start).1
  have haligned := start.property.1
  refine ⟨top start - address / PAGE_SIZE, ?_⟩
  unfold top at *
  generalize start.val = v at *
  simp only [Stacks.within, Bool.and_eq_true, decide_eq_true_eq] at h
  simp only [PAGE_SIZE, STACK_MAX_SIZE, STACK_MAX_PAGES] at *
  omega

theorem mappedBelow_eq (hin : ∀ i, 1 ≤ i → i ≤ n → vpn - i ∈ memory)
    (hout : vpn - (n + 1) ∉ memory) (hlt : n < vpn) : mappedBelow memory vpn = n := by
  induction n generalizing vpn with
  | zero =>
    obtain ⟨v, rfl⟩ := Nat.exists_eq_succ_of_ne_zero (Nat.ne_of_gt hlt)
    rw [mappedBelow, if_neg]
    simpa using hout
  | succ n ih =>
    obtain ⟨v, rfl⟩ := Nat.exists_eq_succ_of_ne_zero (Nat.ne_of_gt (Nat.zero_lt_of_lt hlt))
    have hfirst : memory.contains v = true := hin 1 (Nat.le_refl 1) (by omega)
    rw [mappedBelow, if_pos hfirst, ih]
    · intro i hi hi'
      have hnext := hin (i + 1) (by omega) (by omega)
      rwa [Nat.succ_sub_succ] at hnext
    · rwa [Nat.succ_sub_succ] at hout
    · omega

/-! ### The invariant -/

/-- `stack_pages_` of a thread counts the pages of its stack; those below are not mapped. -/
structure Counted (memory : ArchMemory) (t : UserThread) : Prop where
  pos : 1 ≤ t.stack_pages_.toNat
  max : t.stack_pages_.toNat ≤ STACK_MAX_PAGES
  mapped : ∀ {i : ℕ}, 1 ≤ i → i ≤ t.stack_pages_.toNat → top t.stack_start_addr_ - i ∈ memory
  free : ∀ {i : ℕ}, t.stack_pages_.toNat < i → i ≤ STACK_MAX_PAGES + 1 →
    top t.stack_start_addr_ - i ∉ memory

theorem Counted.count (C : Counted memory t) :
    mappedBelow memory (t.stack_start_addr_.val / PAGE_SIZE) = t.stack_pages_.toNat := by
  have htop := (top_space t.stack_start_addr_).1
  have hmax : t.stack_pages_.toNat ≤ 10 := C.max
  refine mappedBelow_eq (fun i hi hi' => C.mapped hi hi') (C.free (Nat.lt_succ_self _) ?_) ?_
  · exact Nat.succ_le_succ C.max
  · exact Nat.lt_of_le_of_lt hmax (Nat.lt_of_lt_of_le (by decide) htop)

theorem Counted.congr (C : Counted memory t) (h : ∀ v, v ∈ memory' ↔ v ∈ memory) :
    Counted memory' t :=
  ⟨C.pos, C.max, fun hi hi' => (h _).mpr (C.mapped hi hi'),
    fun hi hi' hmem => C.free hi hi' ((h _).mp hmem)⟩

/-- A page outside of the stack and of the page below does not count. -/
theorem Counted.insert (C : Counted memory t)
    (h : ∀ i, 1 ≤ i → i ≤ STACK_MAX_PAGES + 1 → top t.stack_start_addr_ - i ≠ vpn) :
    Counted (memory.insert vpn e) t := by
  refine ⟨C.pos, C.max, fun hi hi' => ?_, fun {i} hi hi' hmem => ?_⟩
  · rw [TreeMap.mem_insert]
    exact .inr (C.mapped hi hi')
  · rw [TreeMap.mem_insert, compare_eq_iff_eq] at hmem
    obtain heq | hmem := hmem
    · exact h i (Nat.le_trans C.pos (Nat.le_of_lt hi)) hi' heq.symm
    · exact C.free hi hi' hmem

theorem counted_first (hroom : Room memory start) :
    Counted (memory.insert (top start - 1) e) ⟨start, 1, false⟩ := by
  have htop := (top_space start).1
  refine ⟨Nat.le_refl 1, by show 1 ≤ 10; decide, fun {i} hi hi' => ?_, fun {i} hi hi' hmem => ?_⟩
  · have hone : i = 1 := Nat.le_antisymm hi' hi
    rw [hone]
    exact TreeMap.mem_insert_self
  · have htwo : 1 < i := hi
    have hmax : i ≤ 11 := hi'
    dsimp only at hmem
    rw [TreeMap.mem_insert, compare_eq_iff_eq] at hmem
    obtain heq | hmem := hmem
    · omega
    · exact hroom i (by omega) hi' hmem

theorem toNat_succ (h : t.stack_pages_.toNat ≤ STACK_MAX_PAGES) :
    (t.stack_pages_ + 1).toNat = t.stack_pages_.toNat + 1 := by
  rw [BitVec.toNat_add]
  exact Nat.mod_eq_of_lt (Nat.lt_of_le_of_lt (Nat.succ_le_succ h) (by decide))

/-- The next page of the stack. -/
theorem Counted.grow (C : Counted memory t) (hlt : t.stack_pages_.toNat < STACK_MAX_PAGES) :
    Counted (memory.insert (top t.stack_start_addr_ - (t.stack_pages_.toNat + 1)) e)
      { t with stack_pages_ := t.stack_pages_ + 1 } := by
  have htop := (top_space t.stack_start_addr_).1
  have hsucc := toNat_succ C.max
  have hmax : STACK_MAX_PAGES = 10 := rfl
  refine ⟨?_, ?_, fun {i} hi hi' => ?_, fun {i} hi hi' hmem => ?_⟩
  · show 1 ≤ (t.stack_pages_ + 1).toNat
    omega
  · show (t.stack_pages_ + 1).toNat ≤ STACK_MAX_PAGES
    omega
  · rw [TreeMap.mem_insert, compare_eq_iff_eq]
    dsimp only at hi' ⊢
    rw [hsucc] at hi'
    obtain heq | hle := Nat.eq_or_lt_of_le hi'
    · exact .inl (by rw [heq])
    · exact .inr (C.mapped hi (Nat.le_of_lt_succ hle))
  · dsimp only at hi hmem
    rw [hsucc] at hi
    rw [TreeMap.mem_insert, compare_eq_iff_eq] at hmem
    obtain heq | hmem := hmem
    · omega
    · exact C.free (by omega) hi' hmem

/-- The threads of a process and its memory. -/
structure StacksInv (memory : ArchMemory) (threads : TreeMap ℕ UserThread) : Prop where
  counted : ∀ {tid : ℕ} {t : UserThread}, threads[tid]? = some t → t.toBeDestroyed = false →
    Counted memory t
  far : ∀ {tid tid' : ℕ} {t t' : UserThread}, threads[tid]? = some t → threads[tid']? = some t' →
    tid ≠ tid' → Far t.stack_start_addr_ t'.stack_start_addr_

theorem StacksInv.congr (I : StacksInv memory threads) (h : ∀ v, v ∈ memory' ↔ v ∈ memory) :
    StacksInv memory' threads :=
  ⟨fun ht hlive => (I.counted ht hlive).congr h, I.far⟩

/-- Threads may end and be deleted. -/
theorem StacksInv.less (I : StacksInv memory threads)
    (h : ∀ (tid : ℕ) t', threads'[tid]? = some t' → ∃ t, threads[tid]? = some t ∧
      (t' = t ∨ t' = { t with toBeDestroyed := true })) : StacksInv memory threads' := by
  have hstart : ∀ {tid : ℕ} {t'}, threads'[tid]? = some t' →
      ∃ t, threads[tid]? = some t ∧ t'.stack_start_addr_ = t.stack_start_addr_ := by
    intro tid t' ht'
    obtain ⟨t, ht, rfl | rfl⟩ := h tid t' ht'
    · exact ⟨_, ht, rfl⟩
    · exact ⟨t, ht, rfl⟩
  constructor
  · intro tid t' ht' hlive
    obtain ⟨t, ht, rfl | rfl⟩ := h tid t' ht'
    · exact I.counted ht hlive
    · cases hlive
  · intro tid tid' t u ht hu hne
    obtain ⟨t₁, ht₁, heq⟩ := hstart ht
    obtain ⟨u₁, hu₁, heq'⟩ := hstart hu
    rw [heq, heq']
    exact I.far ht₁ hu₁ hne

theorem insert_cases (h : (threads.insert tid t)[tid']? = some t') :
    (tid' = tid ∧ t' = t) ∨ (tid' ≠ tid ∧ threads[tid']? = some t') := by
  rw [TreeMap.getElem?_insert] at h
  split at h
  · rename_i heq
    cases h
    exact .inl ⟨(compare_eq_iff_eq.mp heq).symm, rfl⟩
  · rename_i hne
    exact .inr ⟨fun heq => hne (compare_eq_iff_eq.mpr heq.symm), h⟩

/-- A thread comes into the list, or changes. -/
theorem StacksInv.put (I : StacksInv memory threads) (hcounted : Counted memory' t)
    (hothers : ∀ {tid' : ℕ} {t'}, tid' ≠ tid → threads[tid']? = some t' →
      t'.toBeDestroyed = false → Counted memory' t')
    (hfar : ∀ (tid' : ℕ) t', tid' ≠ tid → threads[tid']? = some t' →
      Far t.stack_start_addr_ t'.stack_start_addr_) :
    StacksInv memory' (threads.insert tid t) := by
  constructor
  · intro tid' t' ht' hlive
    obtain ⟨rfl, rfl⟩ | ⟨hne, ht'⟩ := insert_cases ht'
    · exact hcounted
    · exact hothers hne ht' hlive
  · intro tid₁ tid₂ t₁ t₂ h₁ h₂ hne
    obtain ⟨rfl, rfl⟩ | ⟨hne₁, hold₁⟩ := insert_cases h₁
    · obtain ⟨rfl, rfl⟩ | ⟨hne₂, hold₂⟩ := insert_cases h₂
      · exact absurd rfl hne
      · exact hfar tid₂ t₂ hne₂ hold₂
    · obtain ⟨rfl, rfl⟩ | ⟨-, hold₂⟩ := insert_cases h₂
      · exact (hfar tid₁ t₁ hne₁ hold₁).symm
      · exact I.far hold₁ hold₂ hne

theorem StacksInv.addThread (I : StacksInv memory threads) (hroom : Room memory start)
    (hfar : ∀ (tid' : ℕ) t', tid' ≠ tid → threads[tid']? = some t' →
      Far start t'.stack_start_addr_) :
    StacksInv (memory.insert (top start - 1) e) (threads.insert tid ⟨start, 1, false⟩) := by
  refine I.put (counted_first hroom) (fun {tid' t'} hne ht' hlive => ?_) hfar
  refine (I.counted ht' hlive).insert fun i hi hi' => ?_
  exact (hfar tid' t' hne ht').symm.page_ne hi hi' (Nat.le_refl 1) (by decide)

theorem StacksInv.grow (I : StacksInv memory threads) (ht : threads[tid]? = some t)
    (hlive : t.toBeDestroyed = false) (hlt : t.stack_pages_.toNat < STACK_MAX_PAGES) :
    StacksInv (memory.insert (top t.stack_start_addr_ - (t.stack_pages_.toNat + 1)) e)
      (threads.insert tid { t with stack_pages_ := t.stack_pages_ + 1 }) := by
  have hfar : ∀ (tid' : ℕ) t', tid' ≠ tid → threads[tid']? = some t' →
      Far t.stack_start_addr_ t'.stack_start_addr_ :=
    fun tid' t' hne ht' => I.far ht ht' (Ne.symm hne)
  refine I.put ((I.counted ht hlive).grow hlt) (fun {tid' t'} hne ht' hlive' => ?_) hfar
  refine (I.counted ht' hlive').insert fun i hi hi' => ?_
  exact (hfar tid' t' hne ht').symm.page_ne hi hi' (Nat.succ_pos _)
    (Nat.succ_le_succ (Nat.le_of_lt hlt))

/-! ### The operations -/

/-- No assertion about a page that is mapped already. -/
def NotMapped (e : Panic) : Prop := e ≠ .alreadyMapped

theorem allocPPN_spec : Ensures NotMapped (allocPPN pages) fun _ => True := by
  cases pages with
  | nil => exact Panic.noConfusion
  | cons ppn pages => trivial

theorem mapPage_new {ppn : Ppn} (h : vpn ∉ memory) :
    mapPage memory vpn ppn = (memory.insert vpn ⟨ppn, true⟩, true) := by
  rw [mapPage, if_neg (by simpa using h)]

theorem newStack_spec (hroom : Room memory start) :
    Ensures NotMapped (newStack memory start pages) fun r =>
      ∃ e, r = (memory.insert (top start - 1) e, ⟨start, 1, false⟩) := by
  have hfree : start.val / PAGE_SIZE - 1 ∉ memory := hroom 1 (Nat.le_refl 1) (by decide)
  refine allocPPN_spec.seq fun r _ => ?_
  dsimp only
  rw [mapPage_new hfree]
  exact ⟨_, rfl⟩

theorem newLoader_spec : Ensures NotMapped (newLoader pages) fun r =>
    ∃ e, r.1 = (∅ : ArchMemory).insert argsVpn e := by
  refine allocPPN_spec.seq fun r _ => ?_
  dsimp only
  rw [mapPage_new TreeMap.not_mem_emptyc]
  exact ⟨_, rfl⟩

theorem room_newLoader : Room ((∅ : ArchMemory).insert argsVpn e) start := by
  intro i _ _ hmem
  have htop := (top_space start).2
  rw [TreeMap.mem_insert, compare_eq_iff_eq] at hmem
  obtain heq | hmem := hmem
  · omega
  · exact TreeMap.not_mem_emptyc hmem

theorem internalAddNewThread_spec (I : StacksInv p.arch_memory_ p.thread_list_)
    (hroom : Room p.arch_memory_ start)
    (hfar : ∀ (tid' : ℕ) t', p.thread_list_[tid']? = some t' → Far start t'.stack_start_addr_) :
    Ensures NotMapped (internalAddNewThread p start pages) fun q =>
      StacksInv q.arch_memory_ q.thread_list_ := by
  unfold internalAddNewThread
  cases p.called_exit_ with
  | true => exact I
  | false =>
    refine (newStack_spec hroom).seq fun r hr => ?_
    obtain ⟨e, rfl⟩ := hr
    exact I.addThread hroom fun tid' t' _ ht' => hfar tid' t' ht'

theorem killThreadsSiblings_spec (I : StacksInv p.arch_memory_ p.thread_list_) :
    StacksInv p.arch_memory_ (killThreadsSiblings p tid).thread_list_ := by
  refine I.less fun tid' t' ht' => ?_
  rw [killThreadsSiblings, TreeMap.getElem?_map, Option.map_eq_some_iff] at ht'
  obtain ⟨t, ht, rfl⟩ := ht'
  refine ⟨t, ht, ?_⟩
  obtain ⟨start, pages, dead⟩ := t
  cases dead with
  | true => exact .inl rfl
  | false =>
    by_cases heq : tid' = tid
    · simp [heq]
    · simp [heq]

theorem restructure_spec {loads : Bool} (I : StacksInv p.arch_memory_ p.thread_list_)
    (hfar : ∀ (tid' : ℕ) t', tid' ≠ tid → p.thread_list_[tid']? = some t' →
      Far start t'.stack_start_addr_) :
    Ensures NotMapped (restructureProcessForExecv p tid loads start pages) fun q =>
      StacksInv q.arch_memory_ q.thread_list_ := by
  have hkilled : StacksInv p.arch_memory_ (killThreadsSiblings p tid).thread_list_ :=
    killThreadsSiblings_spec I
  unfold restructureProcessForExecv
  cases loads with
  | false => exact hkilled
  | true =>
    refine newLoader_spec.seq fun r hr => ?_
    obtain ⟨memory, rest⟩ := r
    obtain ⟨e, rfl⟩ := hr
    refine (newStack_spec room_newLoader).seq fun r hr => ?_
    obtain ⟨e', rfl⟩ := hr
    refine hkilled.put (counted_first room_newLoader) (fun {tid' t'} hne ht' hlive => ?_)
      fun tid' t' hne ht' => ?_
    · -- the siblings have ended
      rw [killThreadsSiblings, TreeMap.getElem?_map, Option.map_eq_some_iff] at ht'
      obtain ⟨t, ht, rfl⟩ := ht'
      simp [hne] at hlive
    · rw [killThreadsSiblings, TreeMap.getElem?_map, Option.map_eq_some_iff] at ht'
      obtain ⟨t, ht, rfl⟩ := ht'
      exact hfar tid' t hne ht

/-! ### States -/

def Inv (s : Kernel) : Prop :=
  ∀ pid p, s.process_list_ pid = some p → StacksInv p.arch_memory_ p.thread_list_

theorem Inv.set (I : Inv s) (h : StacksInv p.arch_memory_ p.thread_list_) :
    Inv (setProcess s pid p) := by
  intro pid' q hq
  simp only [setProcess, update_apply] at hq
  split at hq
  · cases hq
    exact h
  · exact I _ _ hq

theorem Inv.setPte (I : Inv s) : Inv (setPte s pid vpn e) := by
  intro pid' q hq
  simp only [StackGrowth.setPte, update_apply] at hq
  split at hq
  · obtain ⟨p, hp, rfl⟩ := Option.map_eq_some_iff.mp hq
    exact (I _ _ hp).congr fun v => TreeMap.mem_modify
  · exact I _ _ hq

theorem Inv.erase {ppn : Ppn} (I : Inv s) : Inv (eraseSharer s ppn pid) := I

theorem running_iff : s.running pid tid = some (p, t) ↔
    s.process_list_ pid = some p ∧ p.thread_list_[tid]? = some t ∧ t.toBeDestroyed = false := by
  constructor
  · intro h
    unfold Kernel.running at h
    split at h
    · cases h
    · rename_i q hp
      split at h
      · cases h
      · rename_i u ht
        split at h
        · cases h
        · rename_i hlive
          cases h
          exact ⟨hp, ht, eq_false_of_ne_true hlive⟩
  · intro ⟨hp, ht, hlive⟩
    simp [Kernel.running, hp, ht, hlive]

theorem handleCOWPageFault_spec (I : Inv s) :
    Ensures NotMapped (handleCOWPageFault s pid p address pages) Inv := by
  unfold handleCOWPageFault
  dsimp only
  split
  · exact Panic.noConfusion
  · split
    · exact Panic.noConfusion
    · split
      · exact Panic.noConfusion
      · exact I.setPte
      · refine allocPPN_spec.seq fun r _ => ?_
        split
        · exact Panic.noConfusion
        · split
          · exact Panic.noConfusion
          · exact I.setPte.erase.setPte.erase
      · refine allocPPN_spec.seq fun r _ => ?_
        exact I.setPte

/-! ### Faults -/

theorem stack_of (I : StacksInv p.arch_memory_ p.thread_list_) (ht : p.thread_list_[tid]? = some t)
    (hw : Stacks.within address t.stack_start_addr_ = true) :
    addrIsWithinAnyUserStack p address = some (tid, t) := by
  have hrange : ¬(address > STACK_SPACE_START ∨ address < STACK_SPACE_END) := by
    have hspace := range_of_within hw
    omega
  have hmem : (tid, t) ∈ p.thread_list_.toList := TreeMap.mem_toList_iff_getElem?_eq_some.mpr ht
  have hsome : (p.thread_list_.toList.find? fun t =>
      Stacks.within address t.2.stack_start_addr_).isSome := List.find?_isSome.mpr ⟨_, hmem, hw⟩
  obtain ⟨⟨tid', t'⟩, hfind⟩ := Option.isSome_iff_exists.mp hsome
  rw [addrIsWithinAnyUserStack, if_neg hrange]
  have ht' := TreeMap.mem_toList_iff_getElem?_eq_some.mp (List.mem_of_find?_eq_some hfind)
  rw [hfind]
  by_cases heq : tid' = tid
  · rw [heq, ht] at ht'
    rw [heq, Option.some.inj ht']
  · have hw' : Stacks.within address t'.stack_start_addr_ = true := by
      simpa using List.find?_some hfind
    have hboth := (I.far ht' ht heq).not_within hw'
    rw [hw] at hboth
    cases hboth

/-- A full stack: the process ends. -/
theorem increase_full (h : t.stack_pages_.toNat = STACK_MAX_PAGES) :
    increaseUserStackSize pid p tid t pages = .ok (p.exit, [.maximumReached pid tid]) := by
  have hgt : (t.stack_pages_ + 1).toNat > STACK_MAX_PAGES := by
    rw [toNat_succ (Nat.le_of_eq h), h]
    exact Nat.lt_succ_self _
  rw [increaseUserStackSize]
  dsimp only
  rw [if_pos hgt]
  rfl

/-- The process with one more page for a stack. -/
def grown (p : UserProcess) (tid : ℕ) (t : UserThread) (ppn : Ppn) : UserProcess :=
  { p with
    arch_memory_ :=
      p.arch_memory_.insert (top t.stack_start_addr_ - (t.stack_pages_.toNat + 1)) ⟨ppn, true⟩
    thread_list_ := p.thread_list_.insert tid { t with stack_pages_ := t.stack_pages_ + 1 } }

theorem increase_grows (C : Counted p.arch_memory_ t)
    (hlt : t.stack_pages_.toNat < STACK_MAX_PAGES) :
    increaseUserStackSize pid p tid t pages =
      (fun r => (grown p tid t r.1, [])) <$> allocPPN pages := by
  have hsucc := toNat_succ C.max
  have hle : ¬(t.stack_pages_ + 1).toNat > STACK_MAX_PAGES := by omega
  have hvpn : (t.stack_start_addr_.val - PAGE_SIZE * (t.stack_pages_ + 1).toNat) / PAGE_SIZE =
      top t.stack_start_addr_ - (t.stack_pages_.toNat + 1) := by
    rw [hsucc]
    exact Nat.sub_mul_div _ _ _
  have hfree : top t.stack_start_addr_ - (t.stack_pages_.toNat + 1) ∉ p.arch_memory_ :=
    C.free (Nat.lt_succ_self _) (Nat.succ_le_succ C.max)
  rw [increaseUserStackSize]
  dsimp only
  rw [if_neg hle, hvpn]
  cases pages with
  | nil => rfl
  | cons ppn pages =>
    simp [allocPPN, mapPage_new hfree, grown, bind, Except.bind, pure, Except.pure, Functor.map,
      Except.map]

/-- What a report says about the stack: it has all the pages that it may have. -/
def Justified (s : Kernel) : Event → Prop
  | .couldNotMap _ _ => False
  | .maximumReached pid tid => ∃ p t, s.running pid tid = some (p, t) ∧
    mappedBelow p.arch_memory_ (t.stack_start_addr_.val / PAGE_SIZE) = STACK_MAX_PAGES

/-- What a step leads to. -/
def Kept (s : Kernel) (r : Kernel × List Event) : Prop := Inv r.1 ∧ ∀ ev ∈ r.2, Justified s ev

theorem exit_spec (I : StacksInv p.arch_memory_ p.thread_list_) :
    StacksInv p.exit.arch_memory_ p.exit.thread_list_ := by
  refine I.less fun tid t' ht' => ?_
  rw [UserProcess.exit, TreeMap.getElem?_map, Option.map_eq_some_iff] at ht'
  obtain ⟨t, ht, rfl⟩ := ht'
  exact ⟨t, ht, .inr rfl⟩

theorem increase_spec (I : Inv s) (hrun : s.running pid tid = some (p, t)) :
    Ensures NotMapped (increaseUserStackSize pid p tid t pages) fun r =>
      Kept s (setProcess s pid r.1, r.2) := by
  obtain ⟨hp, ht, hlive⟩ := running_iff.mp hrun
  have C := (I _ _ hp).counted ht hlive
  obtain hlt | hfull := Nat.lt_or_eq_of_le C.max
  · rw [increase_grows C hlt, ensures_map]
    refine allocPPN_spec.mono fun r _ => ?_
    have hnext : StacksInv (grown p tid t r.1).arch_memory_ (grown p tid t r.1).thread_list_ :=
      (I _ _ hp).grow ht hlive hlt
    exact ⟨I.set hnext, nofun⟩
  · rw [increase_full hfull]
    refine ⟨I.set (exit_spec (I _ _ hp)), fun ev hev => ?_⟩
    rw [List.mem_singleton.mp hev]
    exact ⟨p, t, hrun, C.count.trans hfull⟩

theorem handlePageFault_spec {present : Bool} (I : Inv s)
    (hrun : s.running pid tid = some (p, t))
    (hw : Stacks.within address t.stack_start_addr_ = true) :
    Ensures NotMapped (handlePageFault s pid p address present content pages) (Kept s) := by
  obtain ⟨hp, ht, -⟩ := running_iff.mp hrun
  unfold handlePageFault
  split
  · exact ⟨I.set (exit_spec (I _ _ hp)), nofun⟩
  · split
    · exact (handleCOWPageFault_spec I).seq fun u hu => ⟨hu, nofun⟩
    · rw [stack_of (I _ _ hp) ht hw]
      exact (increase_spec I hrun).seq fun r hr => hr

theorem access_spec {writes : Bool} (I : Inv s) (hrun : s.running pid tid = some (p, t))
    (hw : Stacks.within address t.stack_start_addr_ = true) :
    Ensures NotMapped (access s pid p address writes content pages) (Kept s) := by
  unfold access
  split
  · exact handlePageFault_spec I hrun hw
  · split
    · exact ⟨I, nofun⟩
    · exact handlePageFault_spec I hrun hw

/-! ### Steps -/

theorem fork_spec {garbage : Garbage} (I : Inv s) (hrun : s.running pid tid = some (p, t))
    (hpages : garbage.stack_pages_ = t.stack_pages_) : Inv (fork s pid p t garbage) := by
  obtain ⟨hp, ht, hlive⟩ := running_iff.mp hrun
  have hread : ∀ v, v ∈ readOnly p.arch_memory_ ↔ v ∈ p.arch_memory_ := fun v => TreeMap.mem_map
  have hempty : StacksInv (readOnly p.arch_memory_) ∅ := ⟨by simp, by simp⟩
  have hcounted : Counted (readOnly p.arch_memory_)
      ⟨t.stack_start_addr_, garbage.stack_pages_, false⟩ := by
    rw [hpages]
    obtain ⟨hpos, hmax, hin, hout⟩ := ((I _ _ hp).counted ht hlive).congr hread
    exact ⟨hpos, hmax, hin, hout⟩
  intro pid' q hq
  simp only [fork, update_apply] at hq
  split at hq
  · cases hq
    exact hempty.put hcounted (fun _ h _ => by simp at h) (fun _ _ _ h => by simp at h)
  · split at hq
    · cases hq
      exact (I _ _ hp).congr hread
    · exact I _ _ hq

theorem exitThread_spec (I : StacksInv p.arch_memory_ p.thread_list_) :
    StacksInv p.arch_memory_ (exitThread p tid).thread_list_ := by
  refine I.less fun tid' t' ht' => ?_
  rw [exitThread, TreeMap.getElem?_modify] at ht'
  split at ht'
  · rename_i heq
    obtain ⟨t, ht, rfl⟩ := Option.map_eq_some_iff.mp ht'
    exact ⟨t, compare_eq_iff_eq.mp heq ▸ ht, .inr rfl⟩
  · exact ⟨t', ht', .inl rfl⟩

theorem onThreadDestroyed_spec (I : Inv s) (hp : s.process_list_ pid = some p) :
    Inv (onThreadDestroyed s pid p tid) := by
  unfold onThreadDestroyed
  dsimp only
  split
  · intro pid' q hq
    simp only [update_apply] at hq
    split at hq
    · cases hq
    · exact I _ _ hq
  · have hless : StacksInv p.arch_memory_ (p.thread_list_.erase tid) := by
      refine (I _ _ hp).less fun tid' t' ht' => ⟨t', ?_, .inl rfl⟩
      rw [TreeMap.getElem?_erase] at ht'
      split at ht'
      · cases ht'
      · exact ht'
    exact I.set hless

theorem createProcess_spec (I : Inv s) : Ensures NotMapped (createProcess s start pages) Inv := by
  refine newLoader_spec.seq fun r hr => ?_
  obtain ⟨memory, rest⟩ := r
  obtain ⟨e, rfl⟩ := hr
  have hempty : StacksInv ((∅ : ArchMemory).insert argsVpn e) ∅ := ⟨by simp, by simp⟩
  refine (internalAddNewThread_spec hempty room_newLoader (by simp)).seq fun q hq => ?_
  exact I.set hq

theorem onRunning_spec {f : UserProcess → UserThread → Except Panic (Kernel × List Event)}
    (I : Inv s) (h : ∀ p t, s.running pid tid = some (p, t) → Ensures NotMapped (f p t) (Kept s)) :
    Ensures NotMapped (onRunning s pid tid f) (Kept s) := by
  unfold onRunning
  split
  · exact ⟨I, nofun⟩
  · exact h _ _ ‹_›

theorem step_spec {l : Label} (I : Inv s) (hok : StepOk s l) :
    Ensures NotMapped (step s l) (Kept s) := by
  cases l with
  | createProcess start pages =>
    rw [step, ensures_map]
    exact (createProcess_spec I).mono fun u hu => ⟨hu, nofun⟩
  | createThread pid tid start pages =>
    refine onRunning_spec I fun p t hrun => ?_
    obtain ⟨hroom, hfar⟩ := hok p t hrun
    rw [ensures_map]
    refine (internalAddNewThread_spec (I _ _ (running_iff.mp hrun).1) hroom hfar).mono fun q hq => ?_
    exact ⟨I.set hq, nofun⟩
  | fork pid tid garbage =>
    exact onRunning_spec I fun p t hrun => ⟨fork_spec I hrun (hok p t hrun), nofun⟩
  | execv pid tid loads start pages =>
    refine onRunning_spec I fun p t hrun => ?_
    rw [ensures_map]
    refine (restructure_spec (I _ _ (running_iff.mp hrun).1) (hok p t hrun)).mono fun q hq => ?_
    exact ⟨I.set hq, nofun⟩
  | access pid tid address writes content pages =>
    refine onRunning_spec I fun p t hrun => ?_
    obtain ⟨tid', t', hrun', hw⟩ := hok p t hrun
    exact access_spec I hrun' hw
  | exitThread pid tid =>
    exact onRunning_spec I fun p t hrun =>
      ⟨I.set (exitThread_spec (I _ _ (running_iff.mp hrun).1)), nofun⟩
  | exit pid tid =>
    exact onRunning_spec I fun p t hrun =>
      ⟨I.set (exit_spec (I _ _ (running_iff.mp hrun).1)), nofun⟩
  | threadDestroyed pid tid =>
    rw [step]
    split
    · exact ⟨I, nofun⟩
    · rename_i p hp
      split
      · exact ⟨I, nofun⟩
      · rename_i t ht
        refine ⟨?_, nofun⟩
        cases t.toBeDestroyed with
        | true => exact onThreadDestroyed_spec I hp
        | false => exact I

theorem inv_of_runs (h : Runs step StepOk boot tr s) : Inv s := by
  refine h.invariant (I := fun _ s => Inv s) nofun fun I hok hs => ?_
  exact ((step_spec I hok).ok hs).1

/-! ### Repeated faults -/

/-- An access at `address` by the thread, while there is memory. -/
def Repeats (pid tid address : ℕ) (l : Label) : Prop :=
  ∃ writes content ppn pages, l = .access pid tid address writes content (ppn :: pages)

variable {caller : ℕ} {c : UserThread} {l : Label} {ls : List Label}

theorem fault_grows (I : Inv s) (hcaller : s.running pid caller = some (p, c))
    (hrun : s.running pid tid = some (p, t))
    (hw : Stacks.within address t.stack_start_addr_ = true)
    (hnot : address / PAGE_SIZE ∉ p.arch_memory_) (hlt : t.stack_pages_.toNat < STACK_MAX_PAGES)
    (hl : Repeats pid caller address l) :
    ∃ ppn, step s l = .ok (setProcess s pid (grown p tid t ppn), []) := by
  obtain ⟨hp, ht, hlive⟩ := running_iff.mp hrun
  obtain ⟨writes, content, ppn, pages, rfl⟩ := hl
  refine ⟨ppn, ?_⟩
  have hnone : p.arch_memory_[address / PAGE_SIZE]? = none := TreeMap.getElem?_eq_none hnot
  have hvalid : checkPageFaultIsValid s p address false = true := by
    obtain ⟨hlow, hhigh⟩ := range_of_within hw
    have hborder : null_reference_check_border_ ≤ STACK_SPACE_END := by decide
    have hbreak : STACK_SPACE_START < USER_BREAK := by decide
    rw [checkPageFaultIsValid, if_neg (by omega), if_neg (by omega)]
    rfl
  have hshared : ppnShared s p address = false := by
    rw [ppnShared, hnone]
  have hgrow : increaseUserStackSize pid p tid t (ppn :: pages) = .ok (grown p tid t ppn, []) :=
    increase_grows ((I _ _ hp).counted ht hlive) hlt
  simp only [step, onRunning, hcaller, access, hnone, ite_self, handlePageFault, hvalid, hshared,
    stack_of (I _ _ hp) ht hw, hgrow]
  rfl

theorem running_grown {e : Ppn} (hrun : s.running pid tid = some (p, t)) :
    (setProcess s pid (grown p tid t e)).running pid tid =
      some (grown p tid t e, { t with stack_pages_ := t.stack_pages_ + 1 }) := by
  refine running_iff.mpr ⟨update_self _ _ _, TreeMap.getElem?_insert_self, ?_⟩
  exact (running_iff.mp hrun).2.2

theorem running_grown_other {e : Ppn} (hcaller : s.running pid caller = some (p, c))
    (hrun : s.running pid tid = some (p, t)) :
    ∃ c', (setProcess s pid (grown p tid t e)).running pid caller =
      some (grown p tid t e, c') := by
  by_cases heq : caller = tid
  · subst heq
    exact ⟨_, running_grown hrun⟩
  · obtain ⟨-, hc, hlive⟩ := running_iff.mp hcaller
    refine ⟨c, running_iff.mpr ⟨update_self _ _ _, ?_, hlive⟩⟩
    rw [grown, TreeMap.getElem?_insert, if_neg, hc]
    exact fun h => heq (compare_eq_iff_eq.mp h).symm

/-- The number of faults is the number of pages from the stack to the address. -/
theorem faults_settle (I : Inv s) (hcaller : s.running pid caller = some (p, c))
    (hrun : s.running pid tid = some (p, t))
    (hw : Stacks.within address t.stack_start_addr_ = true) (hi : 1 ≤ i) (hi' : i ≤ STACK_MAX_PAGES)
    (hpage : address / PAGE_SIZE = top t.stack_start_addr_ - i)
    (hlength : ls.length = i - t.stack_pages_.toNat) (hls : ∀ l ∈ ls, Repeats pid caller address l) :
    ∃ u q t', exec step s ls = .ok (u, []) ∧ u.running pid tid = some (q, t') ∧
      address / PAGE_SIZE ∈ q.arch_memory_ := by
  have C := (I _ _ (running_iff.mp hrun).1).counted (running_iff.mp hrun).2.1 (running_iff.mp hrun).2.2
  induction ls generalizing s p c t with
  | nil =>
    rw [List.length_nil] at hlength
    exact ⟨s, p, t, rfl, hrun, hpage ▸ C.mapped hi (by omega)⟩
  | cons l ls ih =>
    rw [List.length_cons] at hlength
    have hnot : address / PAGE_SIZE ∉ p.arch_memory_ := hpage ▸ C.free (by omega) (by omega)
    have hlt : t.stack_pages_.toNat < STACK_MAX_PAGES := by omega
    have hl := hls l List.mem_cons_self
    obtain ⟨ppn, hstep⟩ := fault_grows I hcaller hrun hw hnot hlt hl
    obtain ⟨c', hcaller'⟩ := running_grown_other (e := ppn) hcaller hrun
    have hrun' := running_grown (e := ppn) hrun
    have I' : Inv (setProcess s pid (grown p tid t ppn)) := by
      obtain ⟨hp, ht, hlive⟩ := running_iff.mp hrun
      have hnext : StacksInv (grown p tid t ppn).arch_memory_ (grown p tid t ppn).thread_list_ :=
        (I _ _ hp).grow ht hlive hlt
      exact I.set hnext
    have hrest : ls.length = i - (t.stack_pages_ + 1).toNat := by
      rw [toNat_succ C.max]
      omega
    have C' := (I' _ _ (running_iff.mp hrun').1).counted (running_iff.mp hrun').2.1
      (running_iff.mp hrun').2.2
    obtain ⟨u, q, t', hexec, hend⟩ := ih I' hcaller' hrun' hw hpage hrest
      (fun l hl => hls l (List.mem_cons_of_mem _ hl)) C'
    refine ⟨u, q, t', ?_, hend⟩
    rw [exec, hstep]
    simp only [hexec, List.append_nil]

/-! ### The pages of stacks -/

/-- Each running thread counts the consecutive pages that are mapped below its stack's start. -/
def CountsPages (s : Kernel) : Prop :=
  ∀ pid tid p t, s.running pid tid = some (p, t) →
    mappedBelow p.arch_memory_ (t.stack_start_addr_.val / PAGE_SIZE) = t.stack_pages_.toNat

/-- Repeated faults in a stack map the page at the address, and the process goes on. -/
def GrowsToFault (s : Kernel) : Prop :=
  ∀ pid caller tid p c t address, s.running pid caller = some (p, c) →
    s.running pid tid = some (p, t) → Stacks.within address t.stack_start_addr_ = true →
    address < t.stack_start_addr_.val →
    ∃ k, k ≤ STACK_MAX_PAGES ∧ ∀ ls : List Label, ls.length = k →
      (∀ l ∈ ls, Repeats pid caller address l) →
      ∃ u q t', exec step s ls = .ok (u, []) ∧ u.running pid tid = some (q, t') ∧
        address / PAGE_SIZE ∈ q.arch_memory_

/-- No page of a stack is mapped already, and a process ends only if a stack is full. -/
def ReportsJustified (s : Kernel) : Prop :=
  ∀ l, StepOk s l → step s l ≠ .error .alreadyMapped ∧
    ∀ u evs, step s l = .ok (u, evs) → ∀ ev ∈ evs, Justified s ev

end KPanic.StackGrowth

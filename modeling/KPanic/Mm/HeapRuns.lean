import KPanic.Mm.HeapZeroed

/-!
# Runs of the kernel heap

The kernel allocates, frees and reallocates, and it writes to what it owns.
-/

namespace KPanic.Heap

open Bytes Machine Wp MallocSegment

structure System where
  kmm : KernelMemoryManager
  live : List Block

inductive Call
  | allocateMemory (requested_size : UInt64) (caller : Caller)
  | freeMemory (ptr : ℕ) (caller : Caller)
  | reallocateMemory (ptr : ℕ) (new_size : UInt64) (caller : Caller)
  | write (ptr i : ℕ) (v : UInt8)

/-- The kernel frees, reallocates and writes to blocks that it owns. -/
def Call.valid (s : System) : Call → Prop
  | .allocateMemory _ _ => True
  | .freeMemory ptr _ => ∃ c ∈ s.live, c.ptr = ptr
  | .reallocateMemory ptr _ _ => ptr = 0 ∨ ∃ c ∈ s.live, c.ptr = ptr
  | .write ptr i _ => ∃ c ∈ s.live, c.ptr = ptr ∧ i < c.size

/-- A block just handed out. -/
def fresh (ptr size : ℕ) (m : Memory) : Block := ⟨ptr, size, fun i => m (ptr + i)⟩

/-- The blocks after `reallocateMemory` has returned `ptr'`. -/
def reallocated (live : List Block) (ptr size ptr' : ℕ) (m : Memory) : List Block :=
  if size = 0 then eraseBlock live ptr
  else match live.find? fun c => c.ptr = ptr with
    | some c => resized c ptr' size m :: eraseBlock live ptr
    | none => fresh ptr' size m :: live

/-- The events are the blocks that `allocateMemory` hands out. -/
def act (live : List Block) : Call → Kmm (List Block × List Block)
  | .allocateMemory size caller => do
    let ptr ← allocateMemory size.toNat caller
    let c := fresh ptr size.toNat (← get).mem
    return (c :: live, [c])
  | .freeMemory ptr caller => do
    let _ ← freeMemory ptr caller
    return (eraseBlock live ptr, [])
  | .reallocateMemory ptr size caller => do
    let ptr' ← reallocateMemory ptr size.toNat caller
    return (reallocated live ptr size.toNat ptr' (← get).mem, [])
  | .write ptr i v => do
    modify fun s => { s with mem := Function.update s.mem (ptr + i) v }
    return (writeBlock live ptr i v, [])

def step (s : System) (c : Call) : Except Failure (System × List Block) :=
  match (act s.live c).run s.kmm with
  | .ok ((live, evs), kmm) => .ok (⟨kmm, live⟩, evs)
  | .error e => .error e

instance : Decidable (Call.valid s c) :=
  match c with
  | .allocateMemory _ _ => isTrue trivial
  | .freeMemory ptr _ => inferInstanceAs (Decidable (∃ c ∈ s.live, c.ptr = ptr))
  | .reallocateMemory ptr _ _ => inferInstanceAs (Decidable (ptr = 0 ∨ ∃ c ∈ s.live, c.ptr = ptr))
  | .write ptr i _ => inferInstanceAs (Decidable (∃ c ∈ s.live, c.ptr = ptr ∧ i < c.size))

variable {s t : KernelMemoryManager} {x y z : Segment} {l r segs segs' : List Segment}
  {live live' : List Block} {c : Block} {size ptr : ℕ} {caller : Caller} {allowed : Failure → Prop}

/-- What a call leaves. If the heap was clean it still is, unless the call cut a block down. -/
structure Next (s t : KernelMemoryManager) (segs segs' : List Segment) (live' : List Block)
    (cutOk : Prop) : Prop where
  inv : HeapInv t segs'
  owns : Owns t.mem (usedOf segs') live'
  same : ∃ mem last w, t = { s with mem := mem, last_ := last, warnings := w }
  clean : Clean s segs → cutOk → Clean t segs'

theorem wp_allocate (I : HeapInv s segs) (ho : Owns s.mem (usedOf segs) live) (hlt : size < 2 ^ 64)
    (hlarge : allowed .requestedTooMuch) (hk : ∀ e : Failure, e.ofKsbrk = true → allowed e)
    (h : allowed .memoryNotZero ∨ Clean s segs) :
    wp allowed (allocateMemory size caller) (fun ptr t =>
      (∃ segs', Next s t segs segs' (fresh ptr size t.mem :: live) True) ∧
        ∀ i < size, t.mem (ptr + i) = 0) s := by
  refine (wp_bind _ _ _).mpr (wp_checkRequest hlarge fun hbit => ?_)
  obtain ⟨hsize, halign⟩ := align_spec hlt hbit
  refine wp_mono (wp_private_AllocateMemory I halign hk (h.imp_right Clean.body)) ?_
  rintro _ t ⟨l, x, r, w, rfl, hx, hreq, rfl, halloc⟩
  refine ⟨⟨_, halloc.1.inv, ?_, ?_, fun hc _ => halloc.clean hx hreq hc⟩, fun i hi => ?_⟩
  · exact halloc.owns I hx hreq ho rfl hsize (fun _ _ _ _ _ => rfl) fun _ _ => rfl
  · obtain ⟨mem, last, rfl⟩ := halloc.1.same
    exact ⟨_, _, _, rfl⟩
  · obtain ⟨y, hy, haddr, hle, -, -⟩ := usedOf_filled hreq
    have hbyte : ¬HeaderByte (l ++ (filled x (align size) ++ r)) (x.addr + 56 + i) := by
      refine halloc.1.inv.not_headerByte (x := y) ?_ (by omega) (by unfold Segment.stop; omega)
      exact List.mem_append_right _ (List.mem_append_left _ hy)
    exact (halloc.1.bytes _ hbyte).trans (fill_inside (by omega) (by omega))

/-- A block that is live lies in a used segment. -/
theorem Owns.segment (ho : Owns s.mem (usedOf segs) live) (hc : c ∈ live) :
    ∃ l x r, segs = l ++ x :: r ∧ x.used = true ∧ x.addr + 56 = c.ptr ∧ c.size ≤ x.size := by
  obtain ⟨x, hx, hptr, hsize⟩ := ho.owner c hc
  obtain ⟨hx, hused⟩ := mem_usedOf.mp hx
  obtain ⟨l, r, rfl⟩ := List.append_of_mem hx
  exact ⟨l, x, r, rfl, hused, hptr, hsize⟩

theorem wp_free (I : HeapInv s segs) (ho : Owns s.mem (usedOf segs) live) (hc : c ∈ live)
    (hk : (∃ d ∈ live, d.ptr ≠ c.ptr) ∨ ∀ e : Failure, e.ofKsbrk = true → allowed e) :
    wp allowed (freeMemory c.ptr caller) (fun _ t =>
      ∃ segs', Next s t segs segs' (eraseBlock live c.ptr) True) s := by
  obtain ⟨l, x, r, rfl, hx, hptr, -⟩ := ho.segment hc
  rw [← hptr] at hk ⊢
  refine wp_mono (wp_freeMemory I hx fun hnone => hk.resolve_left ?_) ?_
  · rintro ⟨d, hd, hne⟩
    obtain ⟨y, hy, hdptr, -⟩ := ho.owner d hd
    obtain ⟨hy, hused⟩ := mem_usedOf.mp hy
    rw [List.mem_append, List.mem_cons] at hy
    have hfree : y.used = false := by
      obtain hy | rfl | hy := hy
      · exact hnone y (List.mem_append_left _ hy)
      · exact absurd hdptr.symm hne
      · exact hnone y (List.mem_append_right _ hy)
    rw [hfree] at hused
    cases hused
  · rintro _ t ⟨-, l', y, r', hfreed⟩
    refine ⟨_, hfreed.inv, hfreed.owns I hx ho, ?_, fun hclean _ => hfreed.clean hclean⟩
    obtain ⟨mem, last, rfl⟩ := hfreed.same
    exact ⟨_, _, _, rfl⟩

theorem Reallocated.inv (h : Reallocated s t l x r size ptr segs') (I : HeapInv s (l ++ x :: r)) :
    HeapInv t segs' ∧ ∃ mem last w, t = { s with mem := mem, last_ := last, warnings := w } := by
  cases h with
  | same _ hst => exact ⟨hst ▸ I, _, _, _, hst⟩
  | shrunk _ hedit =>
    obtain ⟨mem, last, rfl⟩ := hedit.same
    exact ⟨hedit.inv, _, _, _, rfl⟩
  | grown _ _ _ _ hgrown =>
    obtain ⟨mem, last, rfl⟩ := Edited.same hgrown
    exact ⟨Edited.inv hgrown, _, _, _, rfl⟩
  | moved _ _ _ _ halloc _ hfreed =>
    obtain ⟨mem, last, rfl⟩ := halloc.1.same
    obtain ⟨mem', last', h'⟩ := hfreed.same
    exact ⟨hfreed.inv, mem', last', _, h'⟩

/-- `CutOk`, read from the headers of the block at `ptr` and of the segment behind it. -/
def cutOk (s : KernelMemoryManager) (ptr new_size : ℕ) : Prop :=
  let m_segment := ptr - sizeof_MallocSegment
  let size := load 8 s.mem (m_segment + Field.offset .size_flag_) &&& 0x7FFFFFFF
  let next := load 8 s.mem (m_segment + Field.offset .next_)
  size - new_size > sizeof_MallocSegment →
    (next = 0 ∨ load 8 s.mem (next + Field.offset .size_flag_) &&& 0x80000000 ≠ 0) ∧
      ∀ i < size - new_size - sizeof_MallocSegment,
        s.mem (ptr + new_size + sizeof_MallocSegment + i) = 0

theorem cutOk_iff {new : ℕ} (I : HeapInv s (l ++ x :: r)) :
    cutOk s (x.addr + 56) new ↔ CutOk s.mem x r new := by
  have hx := I.mem_bounds (x := x) (by simp)
  have hnext : load 8 s.mem (x.addr + 8) = headAddr r 0 := I.header.next
  have hsize : load 8 s.mem (x.addr + 48) &&& 0x7FFFFFFF = x.size := by
    rw [I.header.flag, and_size, flag_mod hx.2.2.1]
  have hused : (headAddr r 0 = 0 ∨ load 8 s.mem (headAddr r 0 + 48) &&& 0x80000000 ≠ 0) ↔
      ∀ z ∈ r.head?, z.used = true := by
    cases r with
    | nil => exact iff_of_true (.inl rfl) nofun
    | cons z r =>
      have hz := I.mem_bounds (x := z) (by simp)
      have hflag : load 8 s.mem (z.addr + 48) = z.flag := I.linkedBehind.1.flag
      simp only [headAddr, List.head?_cons, Option.mem_def, Option.some.injEq, forall_eq']
      rw [hflag, flag_and_used hz.2.2.1]
      cases hu : z.used with
      | true => exact iff_of_true (.inr (by decide)) rfl
      | false => exact iff_of_false (by simp [hz.2.2.2.1]) Bool.false_ne_true
  have hzero : (∀ i < x.size - new - 56, s.mem (x.addr + 56 + new + 56 + i) = 0) ↔
      ∀ b, x.addr + 56 + new + 56 ≤ b → b < x.stop → s.mem b = 0 := by
    unfold Segment.stop
    constructor
    · intro h b hlo hhi
      obtain ⟨i, rfl⟩ := Nat.exists_eq_add_of_le hlo
      exact h i (by omega)
    · exact fun h i hi => h _ (by omega) (by omega)
  unfold cutOk CutOk
  simp only [sizeof_MallocSegment, Field.offset, Nat.add_sub_cancel]
  rw [hnext, hsize, hused, hzero]

theorem wp_reallocate (I : HeapInv s segs) (ho : Owns s.mem (usedOf segs) live) (hc : c ∈ live)
    (hlt : size < 2 ^ 64) (h0 : size ≠ 0) (hlarge : allowed .requestedTooMuch)
    (hk : ∀ e : Failure, e.ofKsbrk = true → allowed e) (h : allowed .memoryNotZero ∨ Clean s segs) :
    wp allowed (reallocateMemory c.ptr size caller) (fun ptr t => ∃ segs', Next s t segs segs'
      (resized c ptr size t.mem :: eraseBlock live c.ptr) (cutOk s c.ptr (align size))) s := by
  obtain ⟨l, x, r, rfl, hx, hptr, -⟩ := ho.segment hc
  have hcut : cutOk s c.ptr (align size) ↔ CutOk s.mem x r (align size) := hptr ▸ cutOk_iff I
  rw [hcut, ← hptr]
  refine wp_mono (wp_reallocateMemory I hx hlt h0 hlarge hk (h.imp_right Clean.body)) ?_
  rintro ptr t ⟨segs', hsize, hre⟩
  refine ⟨segs', (hre.inv I).1, ?_, (hre.inv I).2, fun hclean hcut => hre.clean I hclean hcut⟩
  rw [hptr]
  exact hre.owns I hx ho hc hptr hsize

theorem Owns.ptr_ne_zero (ho : Owns s.mem (usedOf segs) live) (hc : c ∈ live) : c.ptr ≠ 0 := by
  obtain ⟨x, -, hptr, -⟩ := ho.owner c hc
  omega

theorem Owns.find (ho : Owns s.mem (usedOf segs) live) (hc : c ∈ live) :
    live.find? (fun d => d.ptr = c.ptr) = some c := by
  cases hfind : live.find? fun d => d.ptr = c.ptr with
  | none => exact absurd (decide_eq_true rfl) (List.find?_eq_none.mp hfind c hc)
  | some d =>
    have hptr : d.ptr = c.ptr :=
      of_decide_eq_true (List.find?_some (p := fun d : Block => d.ptr = c.ptr) hfind)
    rw [List.inj_on_of_nodup_map ho.nodup (List.mem_of_find?_eq_some hfind) hc hptr]

/-- A write to a live block. -/
theorem write_next {i : ℕ} {v : UInt8} (I : HeapInv s segs) (ho : Owns s.mem (usedOf segs) live)
    (hc : c ∈ live) (hi : i < c.size) :
    Next s { s with mem := Function.update s.mem (c.ptr + i) v } segs segs
      (writeBlock live c.ptr i v) True := by
  obtain ⟨l, x, r, rfl, hx, hptr, hsize⟩ := ho.segment hc
  have hin : x.addr + 56 ≤ c.ptr + i ∧ c.ptr + i < x.stop := by
    unfold Segment.stop
    omega
  refine ⟨I.congr (fun b hb => ?_) _, ho.write (fun y hy z hz hne => ?_) hc hi, ⟨_, _, _, rfl⟩,
    fun hclean _ => ⟨hclean.coalesced, fun b hb => ?_, hclean.warnings⟩⟩
  · refine Function.update_of_ne ?_ _ _
    rintro rfl
    exact I.not_headerByte (x := x) (by simp) hin.1 hin.2 hb
  · obtain ⟨l', r', heq⟩ := List.append_of_mem (mem_usedOf.mp hz).1
    have I' := heq ▸ I
    have hy := (mem_usedOf.mp hy).1
    rw [heq, List.mem_append, List.mem_cons] at hy
    refine I'.apart (List.mem_append.mpr ?_)
    obtain hy | rfl | hy := hy
    · exact .inl hy
    · exact absurd rfl hne
    · exact .inr hy
  · refine (Function.update_of_ne ?_ _ _).trans (hclean.zero b hb)
    rintro rfl
    obtain ⟨y, hy, hfree, hlo, hhi⟩ := hb
    rw [List.mem_append, List.mem_cons] at hy
    obtain hy | rfl | hy := hy
    · have hapart := I.apart (List.mem_append_left _ hy)
      unfold Segment.stop at hapart hhi hin
      omega
    · rw [hx] at hfree
      cases hfree
    · have hapart := I.apart (List.mem_append_right _ hy)
      unfold Segment.stop at hapart hhi hin
      omega

/-- The condition under which a call leaves a clean heap clean. -/
def Call.cutOk (s : System) : Call → Prop
  | .reallocateMemory ptr size _ =>
    ptr = 0 ∨ size = 0 ∨ Heap.cutOk s.kmm ptr (align size.toNat)
  | _ => True

theorem Owns.not_null (ho : Owns s.mem (usedOf segs) live) :
    eraseBlock live 0 = live ∧ live.find? (fun d => d.ptr = 0) = none :=
  ⟨List.filter_eq_self.mpr fun _ hc => decide_eq_true (ho.ptr_ne_zero hc),
    List.find?_eq_none.mpr fun _ hc heq => ho.ptr_ne_zero hc (of_decide_eq_true heq)⟩

/-- `reallocateMemory` of nothing to nothing. -/
theorem wp_reallocate_null_zero (ho : Owns s.mem (usedOf segs) live) (I : HeapInv s segs)
    (hlarge : allowed .requestedTooMuch) :
    wp allowed (reallocateMemory 0 0 caller) (fun ptr t =>
      Next s t segs segs (reallocated live 0 0 ptr t.mem) True) s := by
  have hnext : Next s s segs segs (reallocated live 0 0 0 s.mem) True := by
    rw [reallocated, if_pos rfl, ho.not_null.1]
    exact ⟨I, ho, ⟨_, _, _, rfl⟩, fun hclean _ => hclean⟩
  refine (wp_bind _ _ _).mpr (wp_checkRequest hlarge fun _ => ?_)
  refine wp_ite (fun _ => (wp_bind _ _ _).mpr ?_) fun hne => absurd rfl hne
  refine (wp_bind _ _ _).mpr ((wp_get _).mpr ?_)
  exact wp_ite (fun _ => (wp_pure _).mpr ((wp_pure _).mpr hnext)) fun hne => absurd (.inl rfl) hne

theorem wp_reallocate_zero (I : HeapInv s segs) (ho : Owns s.mem (usedOf segs) live)
    (hc : c ∈ live) (hlarge : allowed .requestedTooMuch)
    (hk : ∀ e : Failure, e.ofKsbrk = true → allowed e) :
    wp allowed (reallocateMemory c.ptr 0 caller) (fun _ t =>
      ∃ segs', Next s t segs segs' (eraseBlock live c.ptr) True) s := by
  refine (wp_bind _ _ _).mpr (wp_checkRequest hlarge fun _ => ?_)
  refine wp_ite (fun _ => ?_) fun hne => absurd rfl hne
  exact wp_seq (wp_free I ho hc (.inr hk)) fun _ _ ht => (wp_pure _).mpr ht

theorem wp_reallocate_null (I : HeapInv s segs) (ho : Owns s.mem (usedOf segs) live)
    (hlt : size < 2 ^ 64) (h0 : size ≠ 0) (hlarge : allowed .requestedTooMuch)
    (hk : ∀ e : Failure, e.ofKsbrk = true → allowed e) (h : allowed .memoryNotZero ∨ Clean s segs) :
    wp allowed (reallocateMemory 0 size caller) (fun ptr t =>
      ∃ segs', Next s t segs segs' (fresh ptr size t.mem :: live) True) s := by
  refine (wp_bind _ _ _).mpr (wp_checkRequest hlarge fun _ => ?_)
  refine wp_ite (fun hc => absurd hc h0) fun _ => wp_ite (fun _ => ?_) fun hne => absurd rfl hne
  exact wp_mono (wp_allocate I ho hlt hlarge hk h) fun _ _ ht => ht.1

theorem wp_act_reallocate {size : UInt64} (I : HeapInv s segs)
    (ho : Owns s.mem (usedOf segs) live) (hv : ptr = 0 ∨ ∃ c ∈ live, c.ptr = ptr)
    (hlarge : allowed .requestedTooMuch) (hk : ∀ e : Failure, e.ofKsbrk = true → allowed e)
    (h : allowed .memoryNotZero ∨ Clean s segs) :
    wp allowed (reallocateMemory ptr size.toNat caller) (fun ptr' t =>
      ∃ segs', Next s t segs segs' (reallocated live ptr size.toNat ptr' t.mem)
        ((Call.reallocateMemory ptr size caller).cutOk ⟨s, live⟩)) s := by
  by_cases h0 : size = 0
  · have hsize : size.toNat = 0 := by rw [h0]; rfl
    rw [hsize]
    obtain rfl | ⟨c, hc, rfl⟩ := hv
    · refine wp_mono (wp_reallocate_null_zero ho I hlarge) fun _ t hnext => ?_
      exact ⟨segs, hnext.inv, hnext.owns, hnext.same, fun hc _ => hnext.clean hc trivial⟩
    · refine wp_mono (wp_reallocate_zero I ho hc hlarge hk) ?_
      rintro _ t ⟨segs', hnext⟩
      rw [reallocated, if_pos rfl]
      exact ⟨segs', hnext.inv, hnext.owns, hnext.same, fun hc _ => hnext.clean hc trivial⟩
  · have hsize : size.toNat ≠ 0 := fun heq => h0 (UInt64.toNat_inj.mp heq)
    simp only [reallocated, if_neg hsize]
    obtain rfl | ⟨c, hc, rfl⟩ := hv
    · simp only [ho.not_null.2]
      refine wp_mono (wp_reallocate_null I ho size.toNat_lt hsize hlarge hk h) ?_
      rintro _ t ⟨segs', hnext⟩
      exact ⟨segs', hnext.inv, hnext.owns, hnext.same, fun hc _ => hnext.clean hc trivial⟩
    · simp only [ho.find hc]
      refine wp_mono (wp_reallocate I ho hc size.toNat_lt hsize hlarge hk h) ?_
      rintro _ t ⟨segs', hnext⟩
      refine ⟨segs', hnext.inv, hnext.owns, hnext.same, fun hclean hcut => hnext.clean hclean ?_⟩
      obtain hptr | heq | hcut := hcut
      · exact absurd hptr (ho.ptr_ne_zero hc)
      · exact absurd heq h0
      · exact hcut

theorem wp_act {call : Call} (I : HeapInv s segs) (ho : Owns s.mem (usedOf segs) live)
    (hv : call.valid ⟨s, live⟩) (hlarge : allowed .requestedTooMuch)
    (hk : ∀ e : Failure, e.ofKsbrk = true → allowed e) (h : allowed .memoryNotZero ∨ Clean s segs) :
    wp allowed (act live call) (fun p t =>
      (∃ segs', Next s t segs segs' p.1 (call.cutOk ⟨s, live⟩)) ∧
        ∀ c ∈ p.2, ∀ i < c.size, c.bytes i = 0) s := by
  cases call with
  | allocateMemory size caller =>
    refine wp_seq (wp_allocate I ho size.toNat_lt hlarge hk h) ?_
    rintro ptr t ⟨⟨segs', hnext⟩, hzero⟩
    simp only [wp_bind, wp_get, wp_pure]
    exact ⟨⟨segs', hnext.inv, hnext.owns, hnext.same, fun hc _ => hnext.clean hc trivial⟩,
      fun c hc => List.mem_singleton.mp hc ▸ hzero⟩
  | freeMemory ptr caller =>
    obtain ⟨c, hc, rfl⟩ := hv
    refine wp_seq (wp_free I ho hc (.inr hk)) ?_
    rintro _ t ⟨segs', hnext⟩
    exact (wp_pure _).mpr ⟨⟨segs', hnext⟩, fun _ hc => absurd hc List.not_mem_nil⟩
  | write ptr i v =>
    obtain ⟨c, hc, rfl, hi⟩ := hv
    exact (wp_bind _ _ _).mpr ((wp_modify _ _).mpr ((wp_pure _).mpr
      ⟨⟨segs, write_next I ho hc hi⟩, fun _ hc => absurd hc List.not_mem_nil⟩))
  | reallocateMemory ptr size caller =>
    refine wp_seq (wp_act_reallocate I ho hv hlarge hk h) fun ptr' t hnext => ?_
    simp only [wp_bind, wp_get, wp_pure]
    exact ⟨hnext, fun _ hc => absurd hc List.not_mem_nil⟩

/-! ### From the constructor on -/

variable {start min_pages max_pages : ℕ} {mem : Memory} {k₀ : KernelMemoryManager}

/-- The segment that the constructor makes. -/
def whole (k : KernelMemoryManager) : Segment :=
  ⟨k.base_break_, (k.reserved_min_ - 56) % 2 ^ 31, false⟩

/-- What the constructor leaves. -/
structure Constructed (k : KernelMemoryManager) : Prop where
  inv : HeapInv k [whole k]
  clean : Clean k [whole k]

theorem map_ok {α β ε : Type} {f : α → β} {r : Except ε α} {b : β} (h : f <$> r = .ok b) :
    ∃ a, r = .ok a ∧ f a = b := by
  cases r with
  | error e => cases h
  | ok a =>
    cases h
    exact ⟨a, rfl, rfl⟩

theorem construct_ok (hstart : 0 < start) (hpages : 0 < min_pages)
    (hfits : start + min_pages * PAGE_SIZE < 2 ^ 64)
    (h : construct start min_pages max_pages mem = .ok k₀) : Constructed k₀ ∧
      k₀.base_break_ = start ∧ k₀.reserved_min_ = min_pages * PAGE_SIZE := by
  have hreserved : min_pages * PAGE_SIZE = 4096 * min_pages := Nat.mul_comm _ _
  have hmod := Nat.mod_le (min_pages * PAGE_SIZE - 56) (2 ^ 31)
  have hlt := Nat.mod_lt (min_pages * PAGE_SIZE - 56) (by decide : 2 ^ 31 > 0)
  let x : Segment := ⟨start, (min_pages * PAGE_SIZE - 56) % 2 ^ 31, false⟩
  obtain ⟨⟨_, t⟩, hrun, rfl⟩ := map_ok h
  have hnew := of_wp (Q := fun _ t => t = { KernelMemoryManager.mk start start start
      (start + min_pages * PAGE_SIZE) (max_pages * PAGE_SIZE) (min_pages * PAGE_SIZE) false
      (fill mem start (min_pages * PAGE_SIZE) 0) [] with
      mem := newHeader (fill mem start (min_pages * PAGE_SIZE) 0) x 0 0 })
    (wp_new (x := x) (E := fun _ => False) rfl ?_ rfl rfl) hrun
  · subst hnew
    refine ⟨⟨⟨⟨header_new hlt (by decide) (by decide), trivial⟩, ⟨rfl, ?_⟩, rfl, rfl, hstart, rfl,
      by simp only; omega, hfits, ?_⟩, List.isChain_singleton _, ?_, rfl⟩, rfl, rfl⟩
    · rfl
    · intro y hy
      obtain rfl : whole _ = y := by simpa using hy
      show 0 < (min_pages * PAGE_SIZE - 56) % 2 ^ 31
      omega
    · rintro b ⟨y, hy, -, hlo, hhi⟩
      obtain rfl := List.mem_singleton.mp hy
      have hlo : start + 56 ≤ b := hlo
      have hhi : b < start + 56 + (min_pages * PAGE_SIZE - 56) % 2 ^ 31 := hhi
      exact (newHeader_apart (x := x) (.inr hlo)).trans (fill_inside (by omega) (by omega))
  · show (min_pages * PAGE_SIZE - 56) % 2 ^ 31 = sub64 (min_pages * PAGE_SIZE) 56 % 2 ^ 31
    unfold sub64
    omega

/-! ### Runs -/

variable {σ τ : System} {call : Call} {evs tr : List Block} {e : Failure}

theorem step_ok {Q : List Block × List Block → KernelMemoryManager → Prop}
    (h : wp allowed (act σ.live call) Q σ.kmm) (hstep : step σ call = .ok (τ, evs)) :
    Q (τ.live, evs) τ.kmm := by
  unfold step at hstep
  split at hstep
  · rename_i heq
    cases hstep
    exact of_wp h heq
  · cases hstep

theorem step_error {Q : List Block × List Block → KernelMemoryManager → Prop}
    (h : wp allowed (act σ.live call) Q σ.kmm) (hstep : step σ call = .error e) : allowed e := by
  unfold step at hstep
  split at hstep
  · cases hstep
  · rename_i heq
    cases hstep
    exact error_of_wp h heq

/-- The invariant of a run: the live blocks are the used segments. -/
structure Reached (k₀ : KernelMemoryManager) (σ : System) (segs : List Segment) : Prop where
  inv : HeapInv σ.kmm segs
  owns : Owns σ.kmm.mem (usedOf segs) σ.live
  same : ∃ mem last w, σ.kmm = { k₀ with mem := mem, last_ := last, warnings := w }

theorem Reached.wp_act {E : Failure → Prop} (R : Reached k₀ σ segs) (hv : call.valid σ)
    (hlarge : E .requestedTooMuch) (hk : ∀ e : Failure, e.ofKsbrk = true → E e)
    (h : E .memoryNotZero ∨ Clean σ.kmm segs) :
    wp E (act σ.live call) (fun p t => (∃ segs', Reached k₀ ⟨t, p.1⟩ segs' ∧
      (Clean σ.kmm segs → call.cutOk σ → Clean t segs')) ∧
        ∀ c ∈ p.2, ∀ i < c.size, c.bytes i = 0) σ.kmm := by
  refine wp_mono (Heap.wp_act R.inv R.owns hv hlarge hk h) ?_
  rintro p t ⟨⟨segs', hnext⟩, hzero⟩
  refine ⟨⟨segs', ⟨hnext.inv, hnext.owns, ?_⟩, hnext.clean⟩, hzero⟩
  obtain ⟨mem, last, w, rfl⟩ := hnext.same
  obtain ⟨mem', last', w', hsame⟩ := R.same
  exact ⟨mem, last, w, by rw [hsame]⟩

theorem Constructed.reached (h : Constructed k₀) : Reached k₀ ⟨k₀, []⟩ [whole k₀] :=
  ⟨h.inv, ⟨nofun, nofun, List.nodup_nil, nofun⟩, ⟨_, _, _, rfl⟩⟩

theorem reached (hk : Constructed k₀)
    (h : Runs step (fun σ call => call.valid σ) ⟨k₀, []⟩ tr σ) : ∃ segs, Reached k₀ σ segs := by
  refine h.invariant (I := fun _ σ => ∃ segs, Reached k₀ σ segs) ⟨_, hk.reached⟩ ?_
  rintro _ σ call τ evs ⟨segs, R⟩ hv hstep
  obtain ⟨⟨segs', R', -⟩, -⟩ := step_ok (R.wp_act (E := fun _ => True) hv trivial
    (fun _ _ => trivial) (.inl trivial)) hstep
  exact ⟨segs', R'⟩

theorem reached_clean (hk : Constructed k₀)
    (h : Runs step (fun σ call => call.valid σ ∧ call.cutOk σ) ⟨k₀, []⟩ tr σ) :
    (∃ segs, Reached k₀ σ segs ∧ Clean σ.kmm segs) ∧ ∀ c ∈ tr, ∀ i < c.size, c.bytes i = 0 := by
  refine h.invariant (I := fun tr σ => (∃ segs, Reached k₀ σ segs ∧ Clean σ.kmm segs) ∧
    ∀ c ∈ tr, ∀ i < c.size, c.bytes i = 0) ⟨⟨_, hk.reached, hk.clean⟩, nofun⟩ ?_
  rintro tr σ call τ evs ⟨⟨segs, R, hclean⟩, htr⟩ ⟨hv, hcut⟩ hstep
  obtain ⟨⟨segs', R', hclean'⟩, hevs⟩ := step_ok (R.wp_act (E := fun _ => True) hv trivial
    (fun _ _ => trivial) (.inl trivial)) hstep
  refine ⟨⟨segs', R', hclean' hclean hcut⟩, fun c hc => ?_⟩
  obtain hc | hc := List.mem_append.mp hc
  · exact htr c hc
  · exact hevs c hc

/-! ### Structure -/

/-- The list from `first_` to `last_`. -/
structure SegmentList (k : KernelMemoryManager) (segs : List Segment) : Prop where
  linked : Linked k.mem 0 segs 0
  first : k.first_ = headAddr segs 0
  last : k.last_ = lastAddr 0 segs
  sorted : segs.Pairwise fun x y => x.addr < y.addr
  tiles : Tiles k.first_ segs k.kernel_break_

theorem Tiles.pairwise {a e : ℕ} (h : Tiles a segs e) :
    segs.Pairwise fun x y => x.stop ≤ y.addr := by
  induction segs generalizing a with
  | nil => exact .nil
  | cons x l ih => exact .cons (fun y hy => (h.2.mem hy).1) (ih h.2)

theorem HeapInv.segmentList (I : HeapInv s segs) (htop : top s = s.kernel_break_) :
    SegmentList s segs := by
  refine ⟨I.linked, I.head, I.last, I.tiles.pairwise.imp fun hle => ?_, ?_⟩
  · unfold Segment.stop at hle
    omega
  · rw [← htop, I.first]
    exact I.tiles

/-- The block that a call is about. -/
def Call.target : Call → ℕ
  | .allocateMemory _ _ => 0
  | .freeMemory ptr _ => ptr
  | .reallocateMemory ptr _ _ => ptr
  | .write ptr _ _ => ptr

theorem act_live (hc : c ∈ live) (hne : c.ptr ≠ call.target) :
    wp (fun _ => True) (act live call) (fun p _ => c ∈ p.1) s := by
  cases call with
  | allocateMemory size caller =>
    refine wp_seq wp_true fun ptr t _ => ?_
    simp only [wp_bind, wp_get, wp_pure]
    exact List.mem_cons_of_mem _ hc
  | freeMemory ptr caller =>
    exact wp_seq wp_true fun _ t _ => (wp_pure _).mpr (mem_eraseBlock.mpr ⟨hc, hne⟩)
  | reallocateMemory ptr size caller =>
    refine wp_seq wp_true fun ptr' t _ => ?_
    simp only [wp_bind, wp_get, wp_pure, reallocated]
    split
    · exact mem_eraseBlock.mpr ⟨hc, hne⟩
    · split
      · exact List.mem_cons_of_mem _ (mem_eraseBlock.mpr ⟨hc, hne⟩)
      · exact List.mem_cons_of_mem _ hc
  | write ptr i v =>
    refine (wp_bind _ _ _).mpr ((wp_modify _ _).mpr ((wp_pure _).mpr ?_))
    exact List.mem_map.mpr ⟨c, hc, if_neg hne⟩

/-- The block that a reallocation returns. -/
theorem act_resized {size : UInt64} (ho : Owns s.mem (usedOf segs) live) (hc : c ∈ live)
    (h0 : size ≠ 0) : wp (fun _ => True) (act live (.reallocateMemory c.ptr size caller))
      (fun p t => ∃ ptr', p.1 = resized c ptr' size.toNat t.mem :: eraseBlock live c.ptr) s := by
  refine wp_seq wp_true fun ptr' t _ => ?_
  have hsize : size.toNat ≠ 0 := fun heq => h0 (UInt64.toNat_inj.mp heq)
  simp only [wp_bind, wp_get, wp_pure, reallocated, if_neg hsize, ho.find hc]
  exact ⟨ptr', rfl⟩

theorem HeapInv.blocks_apart (I : HeapInv s segs) (ho : Owns s.mem (usedOf segs) live) :
    live.Pairwise fun c d => c.ptr + c.size ≤ d.ptr ∨ d.ptr + d.size ≤ c.ptr := by
  refine (List.pairwise_map.mp ho.nodup).imp_of_mem fun hc hd hne => ?_
  obtain ⟨l, x, r, rfl, -, hptr, hsize⟩ := ho.segment hc
  obtain ⟨y, hy, hdptr, hdsize⟩ := ho.owner _ hd
  have hy := (mem_usedOf.mp hy).1
  rw [List.mem_append, List.mem_cons] at hy
  have hyx : y ∈ l ++ r := by
    obtain hy | rfl | hy := hy
    · exact List.mem_append_left _ hy
    · omega
    · exact List.mem_append_right _ hy
  have hapart := I.apart hyx
  unfold Segment.stop at hapart
  omega

/-- The list of segments is as it should be and the blocks lie in it; a call changes only the block
that it is about, a reallocation keeps the contents, and no check of the list fails. -/
theorem heap_structure (hstart : 0 < start) (hpages : 0 < min_pages)
    (hfits : start + min_pages * PAGE_SIZE < 2 ^ 64) (hheap : min_pages * PAGE_SIZE < 2 ^ 31)
    (hk : construct start min_pages max_pages mem = .ok k₀)
    (h : Runs step (fun σ call => call.valid σ) ⟨k₀, []⟩ tr σ) :
    (∃ segs, SegmentList σ.kmm segs ∧ ∀ c ∈ σ.live, ∃ x ∈ segs, x.used = true ∧
      x.addr + 56 = c.ptr ∧ c.size ≤ x.size) ∧
    (σ.live.Pairwise fun c d => c.ptr + c.size ≤ d.ptr ∨ d.ptr + d.size ≤ c.ptr) ∧
    (∀ call τ evs, call.valid σ → step σ call = .ok (τ, evs) → ∀ c ∈ σ.live, c.ptr ≠ call.target →
      c ∈ τ.live ∧ ∀ i < c.size, τ.kmm.mem (c.ptr + i) = σ.kmm.mem (c.ptr + i)) ∧
    (∀ c ∈ σ.live, ∀ size caller τ evs, size ≠ 0 →
      step σ (.reallocateMemory c.ptr size caller) = .ok (τ, evs) →
      ∃ d, τ.live = d :: eraseBlock σ.live c.ptr ∧ d.size = size.toNat ∧
        ∀ i < min c.size d.size, τ.kmm.mem (d.ptr + i) = σ.kmm.mem (c.ptr + i)) ∧
    ∀ call e, call.valid σ → step σ call = .error e →
      e = .requestedTooMuch ∨ e.ofKsbrk = true ∨ e = .memoryNotZero := by
  obtain ⟨hconstructed, hbase, hreserved⟩ := construct_ok hstart hpages hfits hk
  obtain ⟨segs, R⟩ := reached hconstructed h
  have htop : top σ.kmm = σ.kmm.kernel_break_ := by
    have hreserved' : σ.kmm.reserved_min_ = k₀.reserved_min_ := by
      obtain ⟨mem, last, w, heq⟩ := R.same
      rw [heq]
    have hbreak := R.inv.break_
    have hmin := R.inv.reserved
    unfold top
    omega
  have hstep : ∀ {call τ evs}, call.valid σ → step σ call = .ok (τ, evs) →
      Runs step (fun σ call => call.valid σ) ⟨k₀, []⟩ (tr ++ evs) τ := fun hv hs => h.next hv hs
  refine ⟨⟨segs, R.inv.segmentList htop, fun c hc => ?_⟩, R.inv.blocks_apart R.owns, ?_, ?_, ?_⟩
  · obtain ⟨x, hx, hptr, hsize⟩ := R.owns.owner c hc
    exact ⟨x, (mem_usedOf.mp hx).1, (mem_usedOf.mp hx).2, hptr, hsize⟩
  · intro call τ evs hv hs c hc hne
    obtain ⟨segs', R'⟩ := reached hconstructed (hstep hv hs)
    have hlive : c ∈ τ.live := step_ok (act_live hc hne) hs
    exact ⟨hlive, fun i hi => (R'.owns.bytes c hlive i hi).trans (R.owns.bytes c hc i hi).symm⟩
  · intro c hc size caller τ evs h0 hs
    have hv : (Call.reallocateMemory c.ptr size caller).valid σ := Or.inr ⟨c, hc, rfl⟩
    obtain ⟨segs', R'⟩ := reached hconstructed (hstep hv hs)
    obtain ⟨ptr', hlive⟩ := step_ok (act_resized R.owns hc h0) hs
    have hlive : τ.live = _ := hlive
    refine ⟨_, hlive, rfl, fun i hi => ?_⟩
    obtain ⟨hic, hid⟩ := lt_min_iff.mp hi
    rw [R'.owns.bytes _ (hlive ▸ List.mem_cons_self) i hid, R.owns.bytes c hc i hic]
    exact if_pos hic
  · intro call e hv hs
    exact step_error (R.wp_act (E := fun e => e = .requestedTooMuch ∨ e.ofKsbrk = true ∨
      e = .memoryNotZero) hv (.inl rfl) (fun _ h => .inr (.inl h)) (.inl (.inr (.inr rfl)))) hs

/-- A heap of one page: two blocks, the first grows and moves, the second is freed. -/
theorem heap_structure_page : ∃ k₀ σ tr, construct 4096 1 0 (fun _ => 7) = .ok k₀ ∧
    Runs step (fun σ call => call.valid σ) ⟨k₀, []⟩ tr σ ∧ σ.live.length = 1 ∧
    ∃ segs, SegmentList σ.kmm segs := by
  have hrun : (match construct 4096 1 0 (fun _ => 7) with
      | .ok k => match execOk step (fun σ call => call.valid σ) ⟨k, []⟩
          [.allocateMemory 100 ⟨1, 2⟩, .allocateMemory 20 ⟨1, 2⟩, .reallocateMemory 4152 200 ⟨1, 2⟩,
            .freeMemory 4320 ⟨1, 2⟩] with
        | some (σ, _) => σ.live.length == 1
        | none => false
      | .error _ => false) = true := by decide +kernel
  split at hrun
  · rename_i k hk
    split at hrun
    · rename_i σ tr hexec
      have h := runs_of_execOk _ _ hexec
      obtain ⟨⟨segs, hsegs, -⟩, -⟩ :=
        heap_structure (by decide) (by decide) (by decide) (by decide) hk h
      exact ⟨k, σ, tr, hk, h, beq_iff_eq.mp hrun, segs, hsegs⟩
    · cases hrun
  · cases hrun

end KPanic.Heap
